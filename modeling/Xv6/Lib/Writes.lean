import Mathlib

/-!
# Sequences of writes

A store maps addresses to values, and a sequence of writes is applied to it in
order. A crash cuts a sequence off at some point: the store keeps a prefix of
the writes.

Redoing a whole sequence of writes after any prefix of it gives what the
sequence alone gives (`applyWrites_take`): a redo log may be replayed from any
point at which an earlier replay was cut off.
-/

namespace Xv6

variable {K V : Type*} [DecidableEq K]

/-- The store after the writes `ws`, in order. -/
def applyWrites (ws : List (K × V)) (d : K → V) : K → V :=
  ws.foldl (fun d w => Function.update d w.1 w.2) d

@[simp] theorem applyWrites_nil (d : K → V) : applyWrites [] d = d := rfl

@[simp] theorem applyWrites_cons (w : K × V) (ws : List (K × V)) (d : K → V) :
    applyWrites (w :: ws) d = applyWrites ws (Function.update d w.1 w.2) := rfl

theorem applyWrites_append (ws vs : List (K × V)) (d : K → V) :
    applyWrites (ws ++ vs) d = applyWrites vs (applyWrites ws d) :=
  List.foldl_append

/-- An address that is not written keeps its value. -/
theorem applyWrites_of_not_mem {ws : List (K × V)} {d : K → V} {a : K}
    (h : ∀ w ∈ ws, w.1 ≠ a) : applyWrites ws d a = d a := by
  induction ws generalizing d with
  | nil => rfl
  | cons w ws ih =>
    rw [applyWrites_cons, ih fun v hv => h v (List.mem_cons_of_mem _ hv),
      Function.update_of_ne (h w List.mem_cons_self).symm]

/-- An address that is written holds the value of the last write to it,
    whatever it held before. -/
theorem applyWrites_congr {ws : List (K × V)} {d d' : K → V} {a : K}
    (h : (∃ w ∈ ws, w.1 = a) ∨ d a = d' a) : applyWrites ws d a = applyWrites ws d' a := by
  induction ws generalizing d d' with
  | nil => simpa using h
  | cons w ws ih =>
    rw [applyWrites_cons, applyWrites_cons]
    apply ih
    by_cases hw : a = w.1
    · exact .inr (by simp [hw])
    · rw [Function.update_of_ne hw, Function.update_of_ne hw]
      refine h.imp_left fun ⟨v, hv, hva⟩ => ⟨v, ?_, hva⟩
      exact (List.mem_cons.1 hv).resolve_left fun e => hw (e ▸ hva.symm)

/-- Writes to distinct addresses: each holds what was written to it. -/
theorem applyWrites_of_mem {ws : List (K × V)} {d : K → V} (hnd : (ws.map Prod.fst).Nodup)
    {w : K × V} (hw : w ∈ ws) : applyWrites ws d w.1 = w.2 := by
  induction ws generalizing d with
  | nil => exact absurd hw List.not_mem_nil
  | cons v ws ih =>
    rw [List.map_cons, List.nodup_cons] at hnd
    rcases List.mem_cons.1 hw with rfl | hw'
    · rw [applyWrites_cons, applyWrites_of_not_mem, Function.update_self]
      exact fun u hu e => hnd.1 (e ▸ List.mem_map_of_mem hu)
    · exact ih hnd.2 hw'

/-- Redoing all the writes after some of them: as doing them once. -/
theorem applyWrites_take (ws : List (K × V)) (k : ℕ) (d : K → V) :
    applyWrites ws (applyWrites (ws.take k) d) = applyWrites ws d := by
  funext a
  apply applyWrites_congr
  by_cases h : ∃ w ∈ ws, w.1 = a
  · exact .inl h
  · refine .inr (applyWrites_of_not_mem fun w hw e => h ⟨w, List.mem_of_mem_take hw, e⟩)

end Xv6
