import Xv6.Vm.Uvm

/-!
# User memory as bytes

What a process sees of its memory: a byte at each address below `TRAPFRAME`. A page that
is not mapped counts as zeros, since this is what the process would find there after a
page fault. `Sees f u s` says that through the map `f`, the process sees the bytes `u`.

Changes of the map that keep the contents of the pages, and new pages of zeros, do not
change what the process sees (`Sees.keep`, `Sees.filled`, `Sees.fault`). Storing in a page
changes the bytes at its addresses only, since no two user pages are mapped to the same
page (`Space.frame_inj`, `Space.store`).
-/

namespace Xv6

/-- The contents of a user page. -/
def content (m : Mem) (f : ℕ → ℕ) (v : ℕ) : Page :=
  if pteV (f v) then m (pteAddr (f v)) else .fill 0

/-- The byte at a user address. -/
def userByte (m : Mem) (f : ℕ → ℕ) (a : ℕ) : UInt8 := (content m f (a / pgsize)).get (a % pgsize)

/-- Through the map `f`, the process sees the bytes `u`. -/
def Sees (f : ℕ → ℕ) (u : ℕ → UInt8) (s : Vm) : Prop :=
  ∀ a < trapframeVa, userByte s.mem f a = u a

/-- The bytes `bs` stored from the address `a` on. -/
def storeBytes (u : ℕ → UInt8) (a : ℕ) (bs : List UInt8) (b : ℕ) : UInt8 :=
  if a ≤ b ∧ b < a + bs.length then bs.getD (b - a) 0 else u b

/-- The `n` bytes from the address `a` on. -/
def loadBytes (u : ℕ → UInt8) (a n : ℕ) : List UInt8 := (List.range n).map fun i => u (a + i)

variable {k : Kernel} {E : VmPanic → Vm → Prop} {s t : Vm} {U R B : Multiset ℕ}
  {pt v w a b perm : ℕ} {f g : ℕ → ℕ} {m m' : Mem} {x : ℕ → UInt8}

/-! ## Storing bytes -/

@[simp] theorem storeBytes_nil (x : ℕ → UInt8) (a : ℕ) : storeBytes x a [] = x := by
  funext b
  rw [storeBytes, if_neg (by rw [List.length_nil]; omega)]

theorem storeBytes_of_not_mem {bs : List UInt8} (h : b < a ∨ a + bs.length ≤ b) :
    storeBytes x a bs b = x b := if_neg (by omega)

theorem storeBytes_of_lt {bs : List UInt8} {i : ℕ} (h : i < bs.length) :
    storeBytes x a bs (a + i) = bs.getD i 0 := by
  rw [storeBytes, if_pos (by omega), Nat.add_sub_cancel_left]

/-- Storing bytes, and then those after them. -/
theorem storeBytes_append (x : ℕ → UInt8) (a : ℕ) (xs ys : List UInt8) :
    storeBytes (storeBytes x a xs) (a + xs.length) ys = storeBytes x a (xs ++ ys) := by
  funext b
  simp only [storeBytes, List.length_append]
  by_cases h₁ : a + xs.length ≤ b ∧ b < a + xs.length + ys.length
  · rw [if_pos h₁, if_pos (by omega), List.getD_append_right _ _ _ _ (by omega), Nat.sub_sub]
  · rw [if_neg h₁]
    by_cases h₂ : a ≤ b ∧ b < a + xs.length
    · rw [if_pos h₂, if_pos (by omega), List.getD_append _ _ _ _ (by omega)]
    · rw [if_neg h₂, if_neg (by omega)]

@[simp] theorem length_loadBytes (x : ℕ → UInt8) (a n : ℕ) : (loadBytes x a n).length = n := by
  simp [loadBytes]

theorem loadBytes_append (x : ℕ → UInt8) (a n n' : ℕ) :
    loadBytes x a n ++ loadBytes x (a + n) n' = loadBytes x a (n + n') := by
  simp only [loadBytes, List.range_add, List.map_append, List.map_map, Function.comp_def,
    Nat.add_assoc]

/-! ## What a process sees -/

theorem vpn_lt_of_user (h : a < trapframeVa) : a / pgsize < userVpn := by
  simp only [userVpn, trapframeVa, trampolineVa, maxVa, pgsize] at *
  omega

theorem lt_trapframeVa_of_vpn (h : a / pgsize < userVpn) : a < trapframeVa := by
  simp only [userVpn, trapframeVa, trampolineVa, maxVa, pgsize] at *
  omega

theorem content_of_valid (h : pteV (f v) = true) : content m f v = m (pteAddr (f v)) := if_pos h

theorem content_of_invalid (h : pteV (f v) = false) : content m f v = .fill 0 :=
  if_neg (by simp [h])

theorem userByte_congr (h : content m' g (a / pgsize) = content m f (a / pgsize)) :
    userByte m' g a = userByte m f a := by rw [userByte, h, userByte]

theorem Sees.self (f : ℕ → ℕ) (s : Vm) : Sees f (userByte s.mem f) s := fun _ _ => rfl

/-- Page by page. -/
theorem Sees.of_content (h : Sees f x s)
    (hc : ∀ v < userVpn, content t.mem g v = content s.mem f v) : Sees g x t := fun a ha =>
  (userByte_congr (hc _ (vpn_lt_of_user ha))).trans (h a ha)

/-- Through the page table that has the map. -/
theorem Sees.of_space (h : Sees f x s) (hs : Space U R pt f s) : Sees (mapping s.mem pt) x s :=
  h.of_content fun v hv => by
    rw [content, content, hs.map v (lt_leafVpn (lt_maxVpn_of_user hv))]

/-- A user page is among the pages of the map. -/
theorem pteAddr_mem_frames (hv : v < userVpn) (hV : pteV (f v) = true) :
    pteAddr (f v) ∈ frames f := by
  refine Multiset.mem_of_le (pageOf_le_frames hv) ?_
  rw [pageOf_of_valid hV]
  exact Multiset.mem_singleton_self _

theorem Keep.content (h : Keep (frames f + R) s t) (hv : v < userVpn) :
    content t.mem f v = content s.mem f v := by
  cases hV : pteV (f v) with
  | false => rw [content_of_invalid hV, content_of_invalid hV]
  | true =>
    rw [content_of_valid hV, content_of_valid hV]
    exact h _ (Multiset.mem_add.2 (.inl (pteAddr_mem_frames hv hV)))

theorem Sees.keep (h : Sees f x s) (hk : Keep (frames f + R) s t) : Sees f x t :=
  h.of_content fun _ hv => hk.content hv

/-- New pages of zeros are not seen. -/
theorem Sees.filled {a b : ℕ} (h : Sees f x s) (hk : Keep (frames f + R) s t)
    (hg : Filled f g a b perm t) (hp : perm < 1024) : Sees g x t := by
  refine h.of_content fun v hv => ?_
  by_cases hin : a ≤ v ∧ v < b
  · obtain ⟨pa, hpa, he, hz⟩ := hg.fresh v hin.1 hin.2
    rw [content_of_valid (by rw [he, pteV_mkPte]), he, pteAddr_mkPte hpa hp, hz,
      content_of_invalid (by rw [hg.unused v hin.1 hin.2, pteV_zero])]
  · rw [← hk.content hv, content, content, hg.same v (by omega)]

/-- Nor is one such page. -/
theorem Sees.fault {r : ℕ} (h : Sees f x s) (hk : Keep (frames f + R) s t) (h0 : f v = 0)
    (hr : PageAddr r) (hz : t.mem r = .fill 0) (hp : perm < 1024) :
    Sees (Function.update f v (mkPte r perm)) x t := by
  refine h.of_content fun w hw => ?_
  by_cases hwv : w = v
  · subst hwv
    rw [content_of_invalid (f := f) (by rw [h0, pteV_zero]), content_of_valid
      (by rw [Function.update_self, pteV_mkPte]), Function.update_self, pteAddr_mkPte hr hp, hz]
  · rw [← hk.content hw, content, content, Function.update_of_ne hwv]

/-- Removed pages are seen as zeros. -/
theorem Sees.unmapped {a b : ℕ} (h : Sees f x s)
    (hk : Keep (frames (Xv6.unmapped f a b) + R) s t) :
    Sees (Xv6.unmapped f a b) (fun c => if a * pgsize ≤ c ∧ c < b * pgsize then 0 else x c) t := by
  intro c hc
  have hin : (a * pgsize ≤ c ∧ c < b * pgsize) ↔ a ≤ c / pgsize ∧ c / pgsize < b := by
    simp only [pgsize]
    omega
  dsimp only
  rw [userByte, hk.content (vpn_lt_of_user hc)]
  by_cases hr : a ≤ c / pgsize ∧ c / pgsize < b
  · rw [if_pos (hin.2 hr), content_of_invalid (by rw [Xv6.unmapped, if_pos hr, pteV_zero])]
    simp [Bytes.get, Bytes.fill]
  · rw [if_neg fun h => hr (hin.1 h), ← h c hc, userByte, content, content, Xv6.unmapped, if_neg hr]

/-- No two user pages are mapped to the same page. -/
theorem Space.frame_inj (h : Space U R pt f s) (hU : Managed k U) (hv : v < userVpn)
    (hw : w < userVpn) (hV : pteV (f v) = true) (hW : pteV (f w) = true)
    (he : pteAddr (f v) = pteAddr (f w)) : v = w := by
  by_contra hne
  have hnd := Multiset.nodup_of_le h.frames_le hU.nodup
  rw [frames, ← Finset.add_sum_erase _ _ (mem_userVpns.2 hv), Multiset.nodup_add,
    pageOf_of_valid hV] at hnd
  refine Multiset.disjoint_left.1 hnd.2.2 (Multiset.mem_singleton_self _) ?_
  refine Multiset.mem_sum.2 ⟨w, Finset.mem_erase.2 ⟨Ne.symm hne, mem_userVpns.2 hw⟩, ?_⟩
  rw [pageOf_of_valid hW, he]
  exact Multiset.mem_singleton_self _

/-- Reading a user page reads the bytes at its addresses. -/
theorem Sees.load (h : Sees f x s) (hv : v < userVpn) (hV : pteV (f v) = true) {off n : ℕ}
    (hlen : off + n ≤ pgsize) :
    (s.mem (pteAddr (f v))).read off n = loadBytes x (v * pgsize + off) n := by
  refine List.map_congr_left fun i hi => ?_
  rw [List.mem_range] at hi
  have hdiv : (v * pgsize + off + i) / pgsize = v := by
    simp only [pgsize] at *
    omega
  have hmod : (v * pgsize + off + i) % pgsize = off + i := by
    simp only [pgsize] at *
    omega
  rw [← h _ (lt_trapframeVa_of_vpn (by rwa [hdiv])), userByte, hdiv, hmod, content_of_valid hV]

/-- Storing in a user page stores the bytes at its addresses. -/
theorem Sees.store (h : Space U R pt f s) (hU : Managed k U) (hv : v < userVpn)
    (hV : pteV (f v) = true) {off : ℕ} {bs : List UInt8} (hlen : off + bs.length ≤ pgsize)
    (hx : Sees f x s) :
    Sees f (storeBytes x (v * pgsize + off) bs) { s with
      mem := Function.update s.mem (pteAddr (f v)) ((s.mem (pteAddr (f v))).write off bs) } := by
  intro b hb
  have hbv := vpn_lt_of_user hb
  have hbs : b / pgsize = v →
      (v * pgsize + off ≤ b ∧ b < v * pgsize + off + bs.length ↔
        off ≤ b % pgsize ∧ b % pgsize < off + bs.length) := by
    rintro rfl
    simp only [pgsize]
    omega
  by_cases hwv : b / pgsize = v
  · have hbo : b % pgsize = b - v * pgsize := by
      rw [← hwv]
      simp only [pgsize]
      omega
    rw [userByte, hwv, content_of_valid hV]
    dsimp only
    rw [Function.update_self, Bytes.get_write _ _ _ (Nat.mod_lt _ pgsize_pos), storeBytes,
      ← hx b hb, userByte, hwv, content_of_valid hV]
    by_cases hin : v * pgsize + off ≤ b ∧ b < v * pgsize + off + bs.length
    · rw [if_pos hin, if_pos ((hbs hwv).1 hin), hbo, Nat.sub_sub]
    · rw [if_neg hin, if_neg fun h => hin ((hbs hwv).2 h)]
  · have hout : b < v * pgsize + off ∨ v * pgsize + off + bs.length ≤ b := by
      simp only [pgsize] at *
      omega
    rw [storeBytes_of_not_mem hout, ← hx b hb]
    refine userByte_congr ?_
    cases hW : pteV (f (b / pgsize)) with
    | false => rw [content_of_invalid hW, content_of_invalid hW]
    | true =>
      rw [content_of_valid hW, content_of_valid hW]
      exact Function.update_of_ne (fun he => hwv (h.frame_inj hU hbv hv hW hV he)) _ _

/-- Storing in a user page. -/
theorem Space.store {Q : PUnit → Vm → Prop} (h : Space U R pt f s) (hU : Managed k U)
    (hv : v < userVpn) (hV : pteV (f v) = true) {off : ℕ} {bs : List UInt8}
    (hlen : off + bs.length ≤ pgsize)
    (hok : ∀ t, Space U R pt f t → Keep R s t →
      (∀ x, Sees f x s → Sees f (storeBytes x (v * pgsize + off) bs) t) → Q ⟨⟩ t) :
    wp (storePage (pteAddr (f v)) off bs) Q E s := by
  have hmem := pteAddr_mem_frames hv hV
  rw [storePage, wp_modify]
  refine hok _ (h.update hU (Multiset.mem_add.2 (.inl hmem)) _) (fun b hb => ?_) fun x hx =>
    hx.store h hU hv hV hlen
  refine Function.update_of_ne ?_ _ _
  rintro rfl
  exact h.not_mem_frames hU hb hmem

/-- `uvmclear` finds a page that is mapped, and keeps its bytes. -/
theorem wp_uvmclear {Q : PUnit → Vm → Prop} (h : Space U R pt f s) (hU : Managed k U)
    (hv : v < userVpn) (hV : pteV (f v) = true)
    (hok : ∀ t, Space U R pt (Function.update f v (clearU (f v))) t → Keep R s t →
      (∀ x, Sees f x s → Sees (Function.update f v (clearU (f v))) x t) → Q ⟨⟩ t) :
    wp (uvmclear pt (v * pgsize)) Q E s := by
  have hvm := lt_maxVpn_of_user hv
  have hmap := h.map v (lt_leafVpn hvm)
  rw [uvmclear, wp_bind, wp_walk (vpn_mul_lt hvm), vpn_mul_div]
  split
  · rename_i hsl
    rw [← hmap, mapping_of_slot_none hsl, pteV_zero] at hV
    cases hV
  · rename_i c j hsl
    simp only [wp_bind, wp_get, setPte, wp_modify]
    have he : s.mem.pte c j = f v := by
      rw [← hmap] at hV ⊢
      rw [pteV_mapping] at hV
      rw [mapping_of_valid hV, leaf_of_slot hsl]
    have hlt : f v < 2 ^ 64 := hmap ▸ mapping_lt _ _ _
    rw [he]
    have hr := remaps_setPte (h.apart hU) hvm hsl (clearU_lt hlt)
      (.inl (by rw [pteV_clearU, hV]))
    have hr' := hr.congr (g := Function.update f v (clearU (f v))) fun w hw => by
      by_cases hwv : w = v
      · rw [hwv, Function.update_self, Function.update_self]
      · rw [Function.update_of_ne hwv, Function.update_of_ne hwv, h.map w hw]
    have hpage : pageOf (clearU (f v)) = pageOf (f v) := by
      rw [pageOf_of_valid hV, pageOf_of_valid (by rw [pteV_clearU, hV]), pteAddr_clearU hlt]
    have hfr : frames (Function.update f v (clearU (f v))) = frames f := by
      have := frames_update (f := f) hv (clearU (f v))
      rw [hpage] at this
      exact add_right_cancel this
    obtain ⟨hsp, hk⟩ := h.remaps R hU hr' (by rw [hfr, add_zero])
    refine hok _ hsp (hk.of_le (Multiset.le_add_left R _)) fun x hx => hx.of_content fun w hw => ?_
    rw [hk.content hw]
    by_cases hwv : w = v
    · rw [hwv, content_of_valid hV, content_of_valid (by
        rw [Function.update_self, pteV_clearU, hV]), Function.update_self, pteAddr_clearU hlt]
    · rw [content, content, Function.update_of_ne hwv]

end Xv6
