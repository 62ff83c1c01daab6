import Xv6.Proc.Load

/-!
# The stack of a new program

`kexec` pushes the argument strings, each with its null byte, and below them the array of
pointers to them, which ends with a null pointer. The stack pointer is rounded down to a
multiple of 16 after each push (`Pushed`), and nothing is stored below the stack
(`wp_pushArgs`, `wp_pushStack`). What the new program finds is an `ArgStack`.
-/

namespace Xv6

/-- The strings `argv` were pushed from `sp` on, at the addresses `ptrs`, and the stack pointer
    is `sp'` then. -/
inductive Pushed (base : ℕ) : ℕ → List (List UInt8) → List ℕ → ℕ → Prop
  | nil (sp : ℕ) : Pushed base sp [] [] sp
  | cons {sp sp' p : ℕ} {arg : List UInt8} {argv : List (List UInt8)} {ptrs : List ℕ} :
    base ≤ p → p % 16 = 0 → p + (arg.length + 1) ≤ sp → sp < p + (arg.length + 1) + 16 →
    Pushed base p argv ptrs sp' → Pushed base sp (arg :: argv) (p :: ptrs) sp'

/-- The strings are at the addresses `ptrs`. -/
def StringsAt (x : ℕ → UInt8) (argv : List (List UInt8)) (ptrs : List ℕ) : Prop :=
  List.Forall₂ (fun arg p => loadBytes x p (arg.length + 1) = arg ++ [0]) argv ptrs

variable {k : Kernel} {E : VmPanic → Vm → Prop} {s t u : Vm} {U R : Multiset ℕ}
  {pt v w n base sp sp' a b p : ℕ} {f : ℕ → ℕ} {x y : ℕ → UInt8} {argv : List (List UInt8)}
  {ptrs : List ℕ} {arg bs : List UInt8}

theorem loadBytes_congr (h : ∀ i < n, x (a + i) = y (a + i)) : loadBytes x a n = loadBytes y a n :=
  List.map_congr_left fun i hi => h i (List.mem_range.1 hi)

/-- What was stored is read back. -/
theorem loadBytes_storeBytes (x : ℕ → UInt8) (a : ℕ) (bs : List UInt8) :
    loadBytes (storeBytes x a bs) a bs.length = bs := by
  refine List.ext_getElem (by simp) fun i h₁ h₂ => ?_
  simp only [loadBytes, List.getElem_map, List.getElem_range]
  rw [storeBytes_of_lt h₂, List.getD_eq_getElem _ _ h₂]

theorem Pushed.le (h : Pushed base sp argv ptrs sp') : sp' ≤ sp := by
  induction h with
  | nil => exact le_rfl
  | cons _ _ _ _ _ ih => omega

theorem Pushed.base_le (h : Pushed base sp argv ptrs sp') (hsp : base ≤ sp) : base ≤ sp' := by
  induction h with
  | nil => exact hsp
  | cons hb _ _ _ _ ih => exact ih hb

theorem Pushed.length (h : Pushed base sp argv ptrs sp') : ptrs.length = argv.length := by
  induction h with
  | nil => rfl
  | cons _ _ _ _ _ ih => rw [List.length_cons, List.length_cons, ih]

/-- The strings are above the last stack pointer, and below the first. -/
theorem Pushed.inside (h : Pushed base sp argv ptrs sp') {i : ℕ} (hi : i < argv.length) :
    sp' ≤ ptrs.getD i 0 ∧ ptrs.getD i 0 + ((argv.getD i []).length + 1) ≤ sp := by
  induction h generalizing i with
  | nil => simp at hi
  | cons hb hal hlo hhi h ih =>
    cases i with
    | zero => exact ⟨h.le, hlo⟩
    | succ i =>
      have := ih (Nat.lt_of_succ_lt_succ hi)
      rw [List.getD_cons_succ, List.getD_cons_succ]
      omega

/-- Each string ends before the one pushed before it begins. -/
theorem Pushed.apart (h : Pushed base sp argv ptrs sp') {i j : ℕ} (hij : i < j)
    (hj : j < argv.length) :
    ptrs.getD j 0 + ((argv.getD j []).length + 1) ≤ ptrs.getD i 0 := by
  induction h generalizing i j with
  | nil => simp at hj
  | cons hb hal hlo hhi h ih =>
    obtain ⟨j, rfl⟩ : ∃ j', j = j' + 1 := ⟨j - 1, by omega⟩
    have hj := Nat.lt_of_succ_lt_succ hj
    rw [List.getD_cons_succ, List.getD_cons_succ]
    cases i with
    | zero => exact (h.inside hj).2
    | succ i => exact ih (by omega) hj

/-- A string is pushed right below the one before it, but for the rounding. -/
theorem Pushed.exact (h : Pushed base sp argv ptrs sp') {i : ℕ} (hi : i < argv.length) :
    ptrs.getD i 0 % 16 = 0 ∧
      (sp :: ptrs).getD i 0 < ptrs.getD i 0 + ((argv.getD i []).length + 1) + 16 := by
  induction h generalizing i with
  | nil => simp at hi
  | cons hb hal hlo hhi h ih =>
    cases i with
    | zero => exact ⟨hal, hhi⟩
    | succ i => exact ih (Nat.lt_of_succ_lt_succ hi)

theorem StringsAt.getD (h : StringsAt x argv ptrs) {i : ℕ} (hi : i < argv.length) :
    loadBytes x (ptrs.getD i 0) ((argv.getD i []).length + 1) = argv.getD i [] ++ [0] := by
  induction h generalizing i with
  | nil => simp at hi
  | cons h _ ih =>
    cases i with
    | zero => exact h
    | succ i => exact ih (Nat.lt_of_succ_lt_succ hi)

/-- What is stored below the strings does not change them. -/
theorem StringsAt.congr (h : StringsAt x argv ptrs) (hp : Pushed base sp argv ptrs sp')
    (hxy : ∀ a, sp' ≤ a → a < sp → y a = x a) : StringsAt y argv ptrs := by
  induction hp with
  | nil => exact .nil
  | cons hb hal hlo hhi hp ih =>
    cases h with
    | cons h₁ h₂ =>
      have hle := hp.le
      refine .cons ?_ (ih h₂ fun a h₃ h₄ => hxy a h₃ (by omega))
      rw [← h₁]
      exact loadBytes_congr fun i hi => hxy _ (by omega) (by omega)

/-! ## Pushing -/

/-- The stack pointer after a push that does not go below the stack. -/
theorem pushSp_bounds (hsp : sp < 2 ^ 64) (hn : n ≤ sp) :
    pushSp sp n + n ≤ sp ∧ sp < pushSp sp n + n + 16 ∧ pushSp sp n % 16 = 0 := by
  have he : (sp + 2 ^ 64 - n) % 2 ^ 64 = sp - n := by omega
  rw [pushSp, he]
  omega

/-- Storing on the stack, which is the last page: all of the bytes, or the first of them. -/
theorem wp_copyout_stack {psz ppt : ℕ} {Q : Bool → Vm → Prop}
    (h : Space U R pt f s) (hU : Managed k U) (hv : v < userVpn) (hV : pteV (f v) = true)
    (hUs : pteU (f v) = true) (hlo : v * pgsize ≤ sp) (hhi : sp + bs.length ≤ (v + 1) * pgsize)
    (hok : ∀ b t, Space U R pt f t → Keep R s t →
      (∀ x, Sees f x s → ∃ n, (b = true → n = bs.length) ∧ Sees f (storeBytes x sp (bs.take n)) t) →
      Q b t) :
    wp (copyout k psz ppt pt sp bs) Q E s := by
  refine (wp_copyoutLoop_mapped hU h le_rfl fun w hw hlt => ?_).mono (fun b t ht => ?_)
    fun _ _ he => he
  · obtain rfl : w = v := by
      simp only [pgsize] at *
      omega
    exact ⟨hv, hV, hUs⟩
  · obtain ⟨n, hc⟩ := ht
    exact hok b t hc.space hc.keep fun x hx => ⟨n, hc.all.1, hc.sees x hx⟩

/-- Nothing has been stored below `base`. -/
def OnlyAbove (base : ℕ) (f : ℕ → ℕ) (s t : Vm) : Prop :=
  ∀ x, Sees f x s → ∃ y, Sees f y t ∧ ∀ a < base, y a = x a

theorem OnlyAbove.refl (base : ℕ) (f : ℕ → ℕ) (s : Vm) : OnlyAbove base f s s :=
  fun x hx => ⟨x, hx, fun _ _ => rfl⟩

theorem OnlyAbove.trans (h : OnlyAbove base f s t) (h' : OnlyAbove base f t u) :
    OnlyAbove base f s u := by
  intro x hx
  obtain ⟨y, hy, hyx⟩ := h x hx
  obtain ⟨z, hz, hzy⟩ := h' y hy
  exact ⟨z, hz, fun a ha => (hzy a ha).trans (hyx a ha)⟩

theorem OnlyAbove.of_store {P : ℕ → Prop} (hsp : base ≤ sp)
    (h : ∀ x, Sees f x s → ∃ n, P n ∧ Sees f (storeBytes x sp (bs.take n)) t) :
    OnlyAbove base f s t := by
  intro x hx
  obtain ⟨n, -, hy⟩ := h x hx
  exact ⟨_, hy, fun a ha => storeBytes_of_not_mem (.inl (by omega))⟩

/-- The strings are pushed, or do not fit. -/
theorem wp_pushArgs {psz ppt : ℕ} {ustack : List ℕ} {Q : Option (ℕ × List ℕ) → Vm → Prop}
    (h : Space U R pt f s) (hU : Managed k U) (hv : v < userVpn) (hV : pteV (f v) = true)
    (hUs : pteU (f v) = true) (hpos : 0 < v) (hargv : ∀ a ∈ argv, a.length < pgsize)
    (hlo : v * pgsize ≤ sp) (hhi : sp ≤ (v + 1) * pgsize)
    (hok : ∀ sp' ptrs t, Space U R pt f t → Keep R s t → Pushed (v * pgsize) sp argv ptrs sp' →
      (∀ x, Sees f x s → ∃ y, Sees f y t ∧ (∀ a, a < sp' ∨ sp ≤ a → y a = x a) ∧
        StringsAt y argv ptrs) →
      ((ustack ++ ptrs).length ≤ max maxArg ustack.length) → Q (some (sp', ustack ++ ptrs)) t)
    (hfail : ∀ t, Space U R pt f t → Keep R s t → OnlyAbove (v * pgsize) f s t → Q none t) :
    wp (pushArgs k psz ppt pt (v * pgsize) argv sp ustack) Q E s := by
  -- By induction on the arguments that are left: each goes below those before.
  induction argv generalizing sp ustack s with
  | nil =>
    have hq := hok sp [] s h (.refl _ _) (.nil sp) (fun x hx => ⟨x, hx, fun _ _ => rfl, .nil⟩)
      (by rw [List.append_nil]; exact Nat.le_max_right _ _)
    rwa [List.append_nil] at hq
  | cons arg argv ih =>
    rw [pushArgs]
    split
    · -- Too many arguments.
      exact hfail s h (.refl _ _) (.refl _ _ _)
    · rename_i hmax
      dsimp only
      split
      · -- Below the stack.
        exact hfail s h (.refl _ _) (.refl _ _ _)
      · rename_i hsp
        have harg := hargv arg List.mem_cons_self
        have hbig : sp < 2 ^ 64 := by
          simp only [userVpn, trapframeVa, trampolineVa, maxVa, pgsize] at *
          omega
        have hfit : arg.length + 1 ≤ sp := by
          simp only [pgsize] at *
          omega
        obtain ⟨hle, hlt, hal⟩ := pushSp_bounds hbig hfit
        generalize pushSp sp (arg.length + 1) = p at *
        have hlen : (arg ++ [0]).length = arg.length + 1 := by simp
        rw [wp_bind]
        refine wp_copyout_stack h hU hv hV hUs (by omega) (by rw [hlen]; omega) fun b t ht hk hx => ?_
        have habove : OnlyAbove (v * pgsize) f s t := .of_store (by omega) hx
        split
        · rename_i hb
          refine ih ht (fun a ha => hargv a (List.mem_cons_of_mem _ ha)) (by omega) (by omega)
            (fun sp' ptrs u hu hku hp hy hm => ?_) fun u hu hku hyu =>
              hfail u hu (hk.trans hku le_rfl) (habove.trans hyu)
          have hq := hok sp' (p :: ptrs) u hu (hk.trans hku le_rfl)
            (.cons (by omega) hal hle hlt hp) (fun x hx₀ => ?_) ?_
          · rw [List.append_cons] at hq
            exact hq
          · -- The string is stored at `p`, and the later ones below leave it there.
            obtain ⟨n, hn, hs⟩ := hx x hx₀
            rw [hn hb, List.take_length] at hs
            obtain ⟨y, hy, hyx, hstr⟩ := hy _ hs
            have hple := hp.le
            refine ⟨y, hy, fun a ha => ?_, .cons ?_ hstr⟩
            · rw [hyx a (by omega), storeBytes_of_not_mem (by rw [hlen]; omega)]
            · refine (loadBytes_congr fun i hi => hyx (p + i) (.inr (by omega))).trans ?_
              rw [← hlen]
              exact loadBytes_storeBytes x p _
          · simp only [List.length_append, List.length_cons, List.length_nil] at hm ⊢
            omega
        · exact hfail t ht hk habove

/-! ## The stack -/

/-- What the new program finds on its stack, between `base` and `top`: from `sp` on, the array
    of the pointers `ptrs` to the strings `argv`, with a null pointer, and above it the
    strings. Each of these parts is right below the one before it, but for the rounding. -/
structure ArgStack (x : ℕ → UInt8) (base top sp : ℕ) (argv : List (List UInt8))
    (ptrs : List ℕ) : Prop where
  aligned : sp % 16 = 0
  length : ptrs.length = argv.length
  array : loadBytes x sp (8 * (argv.length + 1)) = bytesOf (ptrs ++ [0])
  string : ∀ i < argv.length, loadBytes x (ptrs.getD i 0) ((argv.getD i []).length + 1) =
    argv.getD i [] ++ [0]
  base_le : base ≤ sp
  array_le : sp + 8 * (argv.length + 1) ≤ top
  inside : ∀ i < argv.length, sp + 8 * (argv.length + 1) ≤ ptrs.getD i 0 ∧
    ptrs.getD i 0 + ((argv.getD i []).length + 1) ≤ top
  apart : ∀ i j, i < j → j < argv.length →
    ptrs.getD j 0 + ((argv.getD j []).length + 1) ≤ ptrs.getD i 0
  tight : ∀ i < argv.length, ptrs.getD i 0 % 16 = 0 ∧
    (top :: ptrs).getD i 0 < ptrs.getD i 0 + ((argv.getD i []).length + 1) + 16

theorem ArgStack.congr {top : ℕ} (h : ArgStack x base top sp argv ptrs)
    (hxy : ∀ a < top, y a = x a) : ArgStack y base top sp argv ptrs := by
  have hle := h.array_le
  refine { h with array := ?_, string := fun i hi => ?_ }
  · rw [← h.array]
    exact loadBytes_congr fun i hi => hxy _ (by omega)
  · have := (h.inside i hi).2
    rw [← h.string i hi]
    exact loadBytes_congr fun j hj => hxy _ (by omega)

theorem length_bytesOf (xs : List ℕ) : (bytesOf xs).length = 8 * xs.length := by
  induction xs with
  | nil => rfl
  | cons x xs ih =>
    rw [bytesOf] at *
    rw [List.flatMap_cons, List.length_append, length_le, ih, List.length_cons]
    ring

/-- The array of pointers is pushed below the strings. -/
theorem Pushed.argStack {top last : ℕ} (hp : Pushed base top argv ptrs last)
    (hstr : StringsAt x argv ptrs) (hbase : base ≤ sp) (hal : sp % 16 = 0)
    (hle : sp + (argv.length + 1) * 8 ≤ last) :
    ArgStack (storeBytes x sp (bytesOf (ptrs ++ [0]))) base top sp argv ptrs := by
  have hlen : (bytesOf (ptrs ++ [0])).length = 8 * (argv.length + 1) := by
    rw [length_bytesOf, List.length_append, List.length_singleton, hp.length]
  have hlast := hp.le
  have hstr' : StringsAt (storeBytes x sp (bytesOf (ptrs ++ [0]))) argv ptrs :=
    hstr.congr hp fun a h₁ _ => storeBytes_of_not_mem (by rw [hlen]; omega)
  refine ⟨hal, hp.length, ?_, fun i hi => hstr'.getD hi, hbase, by omega, fun i hi => ?_,
    fun i j hij hj => hp.apart hij hj, fun i hi => hp.exact hi⟩
  · rw [← hlen]
    exact loadBytes_storeBytes _ _ _
  · have := hp.inside hi
    omega

theorem wp_pushStack {psz ppt : ℕ} {Q : Option ℕ → Vm → Prop}
    (h : Space U R pt f s) (hU : Managed k U) (hv : v < userVpn) (hV : pteV (f v) = true)
    (hUs : pteU (f v) = true) (hpos : 0 < v) (hargv : ∀ a ∈ argv, a.length < pgsize)
    (hok : ∀ r t, Space U R pt f t → Keep R s t → OnlyAbove (v * pgsize) f s t →
      (∀ sp, r = some sp → ∀ x, Sees f x s → ∃ y ptrs, Sees f y t ∧
        (∀ a < v * pgsize, y a = x a) ∧
        ArgStack y (v * pgsize) ((v + 1) * pgsize) sp argv ptrs) → Q r t) :
    wp (pushStack k psz ppt pt ((v + 1) * pgsize) argv) Q E s := by
  have hbase : (v + 1) * pgsize - userStack * pgsize = v * pgsize := by
    simp only [userStack, pgsize]
    omega
  have hbig : (v + 1) * pgsize < 2 ^ 64 := by
    simp only [userVpn, trapframeVa, trampolineVa, maxVa, pgsize] at *
    omega
  rw [pushStack]
  simp only [hbase, wp_bind]
  refine wp_pushArgs h hU hv hV hUs hpos hargv (by simp only [pgsize]; omega) le_rfl
    (fun sp ptrs t ht hk hp hx hlen => ?_) fun t ht hk hx =>
      hok none t ht hk hx fun sp hsp => (by cases hsp)
  have hlast := hp.le
  have hge := hp.base_le (by simp only [pgsize]; omega)
  have habove : OnlyAbove (v * pgsize) f s t := by
    intro x hx₀
    obtain ⟨y, hy, hyx, -⟩ := hx x hx₀
    exact ⟨y, hy, fun a ha => hyx a (.inl (by omega))⟩
  dsimp only
  split
  · exact hok none t ht hk habove fun sp hsp => (by cases hsp)
  · rename_i hsp
    have hargc : argv.length ≤ maxArg := by
      rw [List.nil_append, List.length_nil, hp.length] at hlen
      exact hlen.trans (by decide)
    have hfit : (argv.length + 1) * 8 ≤ sp := by
      simp only [maxArg, pgsize] at *
      omega
    obtain ⟨hle, -, hal⟩ := pushSp_bounds (by omega) hfit
    generalize pushSp sp ((argv.length + 1) * 8) = sp' at *
    have hlen : (bytesOf ([] ++ ptrs ++ [0])).length = 8 * (argv.length + 1) := by
      rw [length_bytesOf, List.length_append, List.length_singleton, List.nil_append, hp.length]
    rw [wp_bind]
    refine wp_copyout_stack ht hU hv hV hUs (by omega) (by rw [hlen]; omega)
      fun b u hu hku hxu => ?_
    have habove' := habove.trans (.of_store (by omega) hxu)
    split
    · rename_i hb
      refine hok _ u hu (hk.trans hku le_rfl) habove' fun sp'' hsp'' x hx₀ => ?_
      obtain rfl : sp' = sp'' := Option.some.inj hsp''
      obtain ⟨y, hy, hyx, hstr⟩ := hx x hx₀
      obtain ⟨n, hn, hs⟩ := hxu y hy
      rw [hn hb, List.take_length, List.nil_append] at hs
      refine ⟨_, ptrs, hs, fun a ha => ?_, hp.argStack hstr (by omega) hal hle⟩
      rw [storeBytes_of_not_mem (.inl (by omega)), hyx a (.inl (by omega))]
    · exact hok none u hu (hk.trans hku le_rfl) habove' fun sp hsp => (by cases hsp)

end Xv6
