import Xv6.Proc.Space

/-!
# Loading the segments of a program

While `kexec` loads the segments, all pages below the size reached are mapped (`Loaded`):
this is why `loadseg` finds its pages, and why the pages run out before `TRAPFRAME` is
reached, since there are more virtual pages than pages of memory (`Managed.card_lt`).

The bytes of the segments that lie in the file are stored at their addresses, one segment
after the other, and the pages that a segment adds to the address space get its flags
(`SegsLoaded`).
-/

namespace Xv6

variable {k : Kernel} {E : VmPanic → Vm → Prop} {s t u : Vm} {U R : Multiset ℕ}
  {pt v w n sz pa tf : ℕ} {f g : ℕ → ℕ}

/-! ## There are fewer pages than virtual pages -/

theorem Managed.card_lt (hU : Managed k U) : U.card < userVpn := by
  have hsub : U.toFinset ⊆ (Finset.range (physTop / pgsize)).image (· * pgsize) := by
    intro a ha
    obtain ⟨h₁, -, h₃⟩ := hU.page a (Multiset.mem_toFinset.1 ha)
    refine Finset.mem_image.2 ⟨a / pgsize, Finset.mem_range.2 ?_, ?_⟩
    · simp only [physTop, pgsize] at *
      omega
    · simp only [pgsize] at *
      omega
  calc U.card = U.toFinset.card := (Multiset.toFinset_card_of_nodup hU.nodup).symm
    _ ≤ _ := Finset.card_le_card hsub
    _ ≤ _ := Finset.card_image_le
    _ = physTop / pgsize := Finset.card_range _
    _ < userVpn := by norm_num [physTop, pgsize, userVpn, trapframeVa, trampolineVa, maxVa]

/-- If all user pages are mapped, there are as many pages. -/
theorem card_frames_of_full (h : ∀ v < userVpn, pteV (f v) = true) :
    (frames f).card = userVpn := by
  have hone : ∀ v ∈ userVpns, (pageOf (f v)).card = 1 := by
    intro v hv
    rw [pageOf_of_valid (h v (mem_userVpns.1 hv)), Multiset.card_singleton]
  calc (frames f).card = ∑ v ∈ userVpns, (pageOf (f v)).card := Multiset.card_sum _ _
    _ = ∑ v ∈ userVpns, 1 := Finset.sum_congr rfl hone
    _ = userVpns.card := (Finset.card_eq_sum_ones _).symm
    _ = userVpn := card_userVpns

/-! ## Loading -/

/-- The map of a process all of whose pages below its size are mapped. -/
structure Loaded (k : Kernel) (tf sz : ℕ) (f : ℕ → ℕ) : Prop where
  user : UserMap k tf sz f
  full : ∀ v < npages sz, pteV (f v) = true ∧ pteU (f v) = true
  size : npages sz ≤ userVpn

theorem le_trapframeVa_of_npages (h : npages sz ≤ userVpn) : sz ≤ trapframeVa := by
  simp only [npages, userVpn, trapframeVa, trampolineVa, maxVa, pgsize] at *
  omega

/-- Pages that were filled belong to the map of a process, up to the new size. -/
theorem UserMap.filled {a perm : ℕ} (h : UserMap k tf sz f)
    (hfill : Filled f g a (npages n) perm t) (ha : npages sz = a) (hle : npages sz ≤ npages n)
    (hn : npages n ≤ userVpn) (hR : pteR perm = true) : UserMap k tf n g := by
  have ht := trampolineVpn_eq
  have hm := maxVpn_eq
  refine ⟨?_, ?_, fun v h₁ h₂ => ?_, fun v hv hV => ?_, fun v hv hV => ?_⟩
  · rw [hfill.same _ (.inr hn), h.trapframe]
  · rw [hfill.same _ (.inr (by omega)), h.trampoline]
  · rw [hfill.same _ (.inr (by omega)), h.above v h₁ h₂]
  · by_cases hin : a ≤ v ∧ v < npages n
    · obtain ⟨pa, -, e, -⟩ := hfill.fresh v hin.1 hin.2
      rw [e, pteR_mkPte, hR]
    · rw [hfill.same v (by omega)] at hV ⊢
      exact h.readable v hv hV
  · by_cases hin : a ≤ v ∧ v < npages n
    · exact hin.2
    · rw [hfill.same v (by omega)] at hV
      have := h.below v hv hV
      omega

theorem pteR_userPerm (x : ℕ) : pteR (permR ||| permU ||| x) = true := by
  rw [pteR_or, pteR_or]
  have : pteR permR = true := by
    rw [pteR]
    decide
  simp [this]

theorem pteU_userPerm (x : ℕ) : pteU (permR ||| permU ||| x) = true := by
  rw [pteU_or, pteU_or]
  have : pteU permU = true := by
    rw [pteU]
    decide
  simp [this]

/-- `uvmalloc` on the way: it grows the address space or does not change it, and never
    panics. -/
theorem wp_uvmalloc_loaded {newsz xperm : ℕ} {Q : ℕ → Vm → Prop} (h : Space U R pt f s)
    (hU : Managed k U) (hf : Loaded k tf sz f) (hx : xperm < 1024)
    (hless : newsz < sz → Q sz s)
    (hok : ∀ g t, sz ≤ newsz → Space U R pt g t → Loaded k tf newsz g →
      Filled f g (npages sz) (npages newsz) (permR ||| permU ||| xperm) t →
      Keep (frames f + R) s t → Q newsz t)
    (hfail : ∀ t, Space U R pt f t → Keep (frames f + R) s t → Q 0 t) :
    wp (uvmalloc k pt sz newsz xperm) Q E s := by
  refine wp_uvmalloc h hU hx (le_trapframeVa_of_npages hf.size) hf.user.trapframe_valid hless
    (fun g t hle hn hg hfill hk => ?_) (fun t _ ht hk => hfail t ht hk) fun g w t hle hbad _ => ?_
  · refine hok g t hle hg ⟨hf.user.filled hfill rfl (npages_mono hle) hn (pteR_userPerm _),
      fun v hv => ?_, hn⟩ hfill hk
    by_cases hin : npages sz ≤ v
    · obtain ⟨pa, -, e, -⟩ := hfill.fresh v hin hv
      rw [e, pteV_mkPte, pteU_mkPte, pteU_userPerm]
      exact ⟨rfl, rfl⟩
    · rw [hfill.same v (by omega)]
      exact hf.full v (by omega)
  · -- A page that is mapped is below the size, or is the trapframe.
    exfalso
    have hge := hbad.ge
    by_cases hw : w < userVpn
    · have := hf.user.below w hw hbad.valid
      omega
    · have hcard : (frames g).card = userVpn := by
        refine card_frames_of_full fun x hx => ?_
        by_cases hxs : x < npages sz
        · rw [hbad.same x hxs]
          exact (hf.full x hxs).1
        · exact hbad.full x (by omega) (by omega)
      have := hbad.card
      have := hU.card_lt
      omega

/-- Storing the first bytes of a part of a file, and then the others. -/
theorem storeBytes_take (x : ℕ → UInt8) {file : List UInt8} {a off m : ℕ} (hm : m ≤ n)
    (hin : off + n ≤ file.length) :
    storeBytes (storeBytes x a ((file.drop off).take m)) (a + m)
      ((file.drop (off + m)).take (n - m)) = storeBytes x a ((file.drop off).take n) := by
  have hl : ((file.drop off).take m).length = m := by
    rw [List.length_take, List.length_drop]
    omega
  have happ := storeBytes_append x a ((file.drop off).take m)
    ((file.drop (off + m)).take (n - m))
  rw [hl] at happ
  rw [happ, ← List.drop_drop, ← List.take_add, Nat.add_sub_cancel' hm]

/-- Loading a segment stores its bytes, if they lie in the file. -/
theorem wp_loadsegFrom {file : List UInt8} {offset fsz i : ℕ} {Q : Bool → Vm → Prop} (sz : ℕ)
    (h : Space U R pt f s) (hU : Managed k U)
    (hf : ∀ w < npages sz, w < userVpn ∧ pteV (f w) = true ∧ pteU (f w) = true)
    (hsz : sz < 2 ^ 64) (hend : v * pgsize + fsz ≤ sz) (hn : i + n * pgsize < fsz + pgsize)
    (hn' : fsz ≤ i + n * pgsize) (hi : i % pgsize = 0)
    (hok : ∀ b t, Space U R pt f t → Keep R s t →
      (b = true → offset + fsz ≤ file.length → file.length < 2 ^ 32 → ∀ x, Sees f x s →
        Sees f (storeBytes x (v * pgsize + i) ((file.drop (offset + i)).take (fsz - i))) t) →
      Q b t) :
    wp (loadsegFrom file pt (v * pgsize) offset fsz n i) Q E s := by
  -- By induction on the pages that are left.
  induction n generalizing i s with
  | zero =>
    refine hok true s h (.refl _ _) fun _ _ _ x hx => ?_
    rw [show fsz - i = 0 by omega, List.take_zero, storeBytes_nil]
    exact hx
  | succ n ih =>
    have hva : (v * pgsize + i) % 2 ^ 64 = (v + i / pgsize) * pgsize := by
      simp only [pgsize] at *
      omega
    have hpage : v + i / pgsize < npages sz := by
      simp only [npages, pgsize] at *
      omega
    obtain ⟨hu, hV, hUs⟩ := hf _ hpage
    have hvm := lt_maxVpn_of_user hu
    have hne := (hU.pageAddr (h.mem_of_mem (Multiset.mem_add.2
      (.inl (pteAddr_mem_frames hu hV))))).pos.ne'
    have hmap := h.map _ (lt_leafVpn hvm)
    have hfound : v + i / pgsize < maxVpn ∧ pteV (f (v + i / pgsize)) = true ∧
        pteU (f (v + i / pgsize)) = true := ⟨hvm, hV, hUs⟩
    have hlen : (readi file ((offset + i) % 2 ^ 32) (min (fsz - i) pgsize)).length ≤ pgsize := by
      rw [readi]
      split
      · exact Nat.zero_le _
      · exact (List.length_take_le _ _).trans (Nat.min_le_right _ _)
    rw [loadsegFrom, hva, wp_bind, wp_walkaddr, hmap, if_pos hfound, if_neg hne, wp_bind]
    refine h.store hU hu hV (by rw [zero_add]; exact hlen) fun t ht hk hx => ?_
    have hat : (v + i / pgsize) * pgsize + 0 = v * pgsize + i := by
      simp only [pgsize] at *
      omega
    rw [hat] at hx
    -- A short read of the file ends the loop.
    split
    · refine ih ht ?_ ?_ ?_ fun b u hu hku hxu => hok b u hu (hk.trans hku le_rfl)
        fun hb hin hlt x hx₀ => ?_
      · simp only [pgsize] at *
        omega
      · simp only [pgsize] at *
        omega
      · simp only [pgsize] at *
        omega
      · have hpos : i < fsz := by
          simp only [pgsize] at hn
          omega
        have hread : readi file ((offset + i) % 2 ^ 32) (min (fsz - i) pgsize) =
            (file.drop (offset + i)).take (min (fsz - i) pgsize) := by
          rw [Nat.mod_eq_of_lt (by omega), readi, if_neg (by omega)]
        have hlast := hxu hb hin hlt _ (hx x hx₀)
        rw [hread] at hlast
        -- This page and the next ones make one piece of the file, or this was the last page.
        by_cases hmore : pgsize ≤ fsz - i
        · rw [Nat.min_eq_right hmore, ← Nat.add_assoc, ← Nat.add_assoc, ← Nat.sub_sub,
            storeBytes_take x hmore (by omega)] at hlast
          exact hlast
        · rw [Nat.min_eq_left (by omega), show fsz - (i + pgsize) = 0 by omega, List.take_zero,
            storeBytes_nil] at hlast
          exact hlast
    · exact hok false t ht hk fun hb => (by cases hb)

theorem wp_loadseg {file : List UInt8} {offset fsz va : ℕ} {Q : Bool → Vm → Prop}
    (h : Space U R pt f s) (hU : Managed k U) (hf : Loaded k tf sz f) (hva : va % pgsize = 0)
    (hend : va + fsz ≤ sz)
    (hok : ∀ b t, Space U R pt f t → Keep R s t →
      (b = true → offset + fsz ≤ file.length → file.length < 2 ^ 32 → ∀ x, Sees f x s →
        Sees f (storeBytes x va ((file.drop offset).take fsz)) t) → Q b t) :
    wp (loadseg file pt va offset fsz) Q E s := by
  have hle := le_trapframeVa_of_npages hf.size
  have hva' : va = va / pgsize * pgsize := by
    simp only [pgsize] at *
    omega
  have hsize := hf.size
  rw [loadseg, hva']
  refine wp_loadsegFrom sz h hU (fun w hw => ⟨by omega, hf.full w hw⟩) ?_ (by omega) ?_ ?_
    (by decide) fun b t ht hk hx => hok b t ht hk ?_
  · simp only [trapframeVa, trampolineVa, maxVa, pgsize] at hle
    omega
  · simp only [pgsize]
    omega
  · simp only [pgsize]
    omega
  · rwa [Nat.add_zero, Nat.add_zero, Nat.sub_zero, ← hva'] at hx

theorem flags2perm_lt (x : ℕ) : flags2perm x < 1024 := by
  rw [flags2perm]
  split <;> split <;> decide

theorem field_lt (bs : List UInt8) (off w : ℕ) : field bs off w < 256 ^ w := by
  rw [field]
  refine Nat.lt_of_lt_of_le (ofLe_lt _) (Nat.pow_le_pow_right (by omega) ?_)
  exact List.length_take_le _ _

/-! ## The segments of a file -/

/-- The headers of the segments to load, of `n` headers from `off` on, as the code reads them. -/
def segsFrom (file : List UInt8) : ℕ → ℕ → List Proghdr
  | 0, _ => []
  | n + 1, off =>
    let ph := proghdr (readi file off proghdrSize)
    if ph.type ≠ elfProgLoad then segsFrom file n ((off + proghdrSize) % 2 ^ 32)
    else ph :: segsFrom file n ((off + proghdrSize) % 2 ^ 32)

/-- The end of a segment. -/
def Proghdr.stop (ph : Proghdr) : ℕ := ph.vaddr + ph.memsz

/-- The bytes of a segment that are in the file. -/
def Proghdr.bytes (file : List UInt8) (ph : Proghdr) : List UInt8 :=
  (file.drop ph.off).take ph.filesz

/-- The flags of the pages of a segment. -/
def Proghdr.perm (ph : Proghdr) : ℕ := permR ||| permU ||| flags2perm ph.flags

/-- What is seen when the segments have been stored one after the other. -/
def storeSegs (file : List UInt8) (segs : List Proghdr) (x : ℕ → UInt8) : ℕ → UInt8 :=
  segs.foldl (fun x ph => storeBytes x ph.vaddr (ph.bytes file)) x

/-- The size after the segments. -/
def segsSize (segs : List Proghdr) (sz : ℕ) : ℕ := segs.foldl (fun sz ph => max sz ph.stop) sz

theorem le_segsSize (segs : List Proghdr) (sz : ℕ) : sz ≤ segsSize segs sz := by
  induction segs generalizing sz with
  | nil => exact le_rfl
  | cons ph segs ih => exact (Nat.le_max_left sz ph.stop).trans (ih _)

theorem stop_le_segsSize {segs : List Proghdr} {ph : Proghdr} (h : ph ∈ segs) (sz : ℕ) :
    ph.stop ≤ segsSize segs sz := by
  induction segs generalizing sz with
  | nil => simp at h
  | cons ph' segs ih =>
    rcases List.mem_cons.1 h with rfl | h
    · exact (Nat.le_max_right sz ph.stop).trans (le_segsSize segs _)
    · exact ih h _

/-- The segments are not empty, and each begins on a page after those of the ones before. -/
def Ascending : ℕ → List Proghdr → Prop
  | _, [] => True
  | sz, ph :: segs => npages sz * pgsize ≤ ph.vaddr ∧ 0 < ph.memsz ∧ Ascending ph.stop segs

/-- The bytes of the segments lie in the file. -/
def InFile (file : List UInt8) (segs : List Proghdr) : Prop :=
  file.length < 2 ^ 32 ∧ ∀ ph ∈ segs, ph.off + ph.filesz ≤ file.length

/-- The segments have been loaded. -/
structure SegsLoaded (file : List UInt8) (segs : List Proghdr) (sz : ℕ) (f : ℕ → ℕ) (s : Vm)
    (sz' : ℕ) (g : ℕ → ℕ) (t : Vm) : Prop where
  size : sz' = segsSize segs sz
  aligned : ∀ ph ∈ segs, ph.vaddr % pgsize = 0 ∧ ph.filesz ≤ ph.memsz
  same : ∀ v < npages sz, g v = f v
  flags : Ascending sz segs → ∀ ph ∈ segs, ∀ v, ph.vaddr / pgsize ≤ v → v < npages ph.stop →
    ∃ pa, PageAddr pa ∧ g v = mkPte pa ph.perm
  sees : InFile file segs → ∀ x, Sees f x s → Sees g (storeSegs file segs x) t

theorem SegsLoaded.nil (file : List UInt8) (sz : ℕ) (f : ℕ → ℕ) (s : Vm) :
    SegsLoaded file [] sz f s sz f s where
  size := rfl
  aligned ph h := by simp at h
  same _ _ := rfl
  flags _ ph h := by simp at h
  sees _ _ hx := hx

/-- A segment, and those after it. -/
theorem SegsLoaded.cons {file : List UInt8} {ph : Proghdr} {segs : List Proghdr} {sz₁ sz' : ℕ}
    {f₁ : ℕ → ℕ} {s₁ : Vm} (hal : ph.vaddr % pgsize = 0) (hfm : ph.filesz ≤ ph.memsz)
    (hsz₁ : sz₁ = max sz ph.stop) (hsame : ∀ v < npages sz, f₁ v = f v)
    (hflags : ∀ v, npages sz ≤ v → v < npages sz₁ → ∃ pa, PageAddr pa ∧ f₁ v = mkPte pa ph.perm)
    (hsees : ph.off + ph.filesz ≤ file.length → file.length < 2 ^ 32 → ∀ x, Sees f x s →
      Sees f₁ (storeBytes x ph.vaddr (ph.bytes file)) s₁)
    (h : SegsLoaded file segs sz₁ f₁ s₁ sz' g t) : SegsLoaded file (ph :: segs) sz f s sz' g t := by
  have hmono : npages sz ≤ npages sz₁ := npages_mono (by omega)
  refine ⟨?_, ?_, fun v hv => ?_, fun hasc => ?_, fun hin x hx => ?_⟩
  · rw [h.size, segsSize, segsSize, List.foldl_cons, ← hsz₁]
  · rintro ph' hmem
    rcases List.mem_cons.1 hmem with rfl | hmem
    · exact ⟨hal, hfm⟩
    · exact h.aligned ph' hmem
  · rw [h.same v (by omega), hsame v hv]
  · obtain ⟨hlo, hpos, hasc⟩ := hasc
    have hstop : sz₁ = ph.stop := by
      rw [hsz₁]
      refine Nat.max_eq_right ?_
      rw [Proghdr.stop]
      have : sz ≤ npages sz * pgsize := by
        simp only [npages, pgsize]
        omega
      omega
    intro ph' hmem v hv₁ hv₂
    rcases List.mem_cons.1 hmem with rfl | hmem
    · obtain ⟨pa, hpa, he⟩ := hflags v (by
        simp only [pgsize] at *
        omega) (by rwa [hstop])
      exact ⟨pa, hpa, by rw [h.same v (by rwa [hstop]), he]⟩
    · exact h.flags (by rwa [hstop]) ph' hmem v hv₁ hv₂
  · refine h.sees ⟨hin.1, fun ph' hmem => hin.2 ph' (List.mem_cons_of_mem _ hmem)⟩ _ ?_
    exact hsees (hin.2 ph List.mem_cons_self) hin.1 x hx

/-- The bounds of a segment that passes the checks. -/
theorem Proghdr.bounds {ph : Proghdr} {bs : List UInt8} (h : ph = proghdr bs)
    (hok : ph.ok = true) : (ph.vaddr + ph.memsz) % 2 ^ 64 = ph.stop ∧
      ph.vaddr + ph.filesz % 2 ^ 32 ≤ ph.stop ∧ ph.vaddr % pgsize = 0 ∧
      ph.filesz ≤ ph.memsz := by
  have h₁ : ph.vaddr < 256 ^ 8 := h ▸ field_lt _ _ _
  have h₂ : ph.memsz < 256 ^ 8 := h ▸ field_lt _ _ _
  have h₃ : ph.filesz % 2 ^ 32 ≤ ph.filesz := Nat.mod_le _ _
  simp only [Proghdr.ok, decide_eq_true_eq] at hok
  obtain ⟨h₄, h₅, h₆⟩ := hok
  rw [Proghdr.stop]
  exact ⟨by omega, by omega, h₆, h₄⟩

/-- The loop over the segments loads them, and maps all pages up to the size it reaches. -/
theorem wp_loadSegs {file : List UInt8} {off : ℕ} {Q : Bool × ℕ → Vm → Prop}
    (h : Space U R pt f s) (hU : Managed k U) (hf : Loaded k tf sz f)
    (hok : ∀ b sz' g t, Space U R pt g t → Loaded k tf sz' g → Keep R s t →
      (b = true → SegsLoaded file (segsFrom file n off) sz f s sz' g t) → Q (b, sz') t) :
    wp (loadSegs k file pt n off sz) Q E s := by
  induction n generalizing off sz f s with
  | zero => exact hok true sz f s h hf (.refl _ _) fun _ => .nil file sz f s
  | succ n ih =>
    have hle := Multiset.le_add_left R (frames f)
    have hstop : Q (false, sz) s := hok false sz f s h hf (.refl _ _) fun hb => (by cases hb)
    rw [loadSegs]
    generalize hph : proghdr (readi file off proghdrSize) = ph
    dsimp only
    split
    · exact hstop
    · split
      · rename_i htype
        have hseg : segsFrom file (n + 1) off =
            segsFrom file n ((off + proghdrSize) % 2 ^ 32) := by
          rw [segsFrom, hph]
          exact if_pos htype
        rw [hseg] at hok
        exact ih h hf hok
      · rename_i htype
        have hsegs : segsFrom file (n + 1) off =
            ph :: segsFrom file n ((off + proghdrSize) % 2 ^ 32) := by
          rw [segsFrom, hph]
          exact if_neg htype
        rw [hsegs] at hok
        split
        · exact hstop
        · rename_i hphok
          obtain ⟨hmod, hend, hal, hfm⟩ := Proghdr.bounds hph.symm (by simpa using hphok)
          rw [wp_bind, hmod]
          -- The pages of the segment are below the new size.
          have hseg : ∀ g t sz', Space U R pt g t → Loaded k tf sz' g → Keep R s t →
              sz' = max sz ph.stop → (∀ v < npages sz, g v = f v) →
              (∀ v, npages sz ≤ v → v < npages sz' → ∃ pa, PageAddr pa ∧ g v = mkPte pa ph.perm) →
              (∀ x, Sees f x s → Sees g x t) →
              wp (if sz' = 0 then pure (false, sz) else do
                if ← loadseg file pt ph.vaddr (ph.off % 2 ^ 32) (ph.filesz % 2 ^ 32) then
                  loadSegs k file pt n ((off + proghdrSize) % 2 ^ 32) sz'
                else pure (false, sz')) Q E t := by
            intro g t sz' ht hg hk hsz hsame hflags hsees
            split
            · obtain rfl : sz = sz' := by omega
              exact hok false sz g t ht hg hk fun hb => (by cases hb)
            · rw [wp_bind]
              refine wp_loadseg ht hU hg hal (by omega) fun b u hu hku hxu => ?_
              split
              · rename_i hb
                refine ih hu hg fun b' sz'' g' w hw hg' hkw hl => ?_
                refine hok b' sz'' g' w hw hg' ((hk.trans hku le_rfl).trans hkw le_rfl) fun hb' => ?_
                refine (hl hb').cons hal hfm hsz hsame hflags fun hin hlt x hx => ?_
                have hstore := hxu hb
                rw [Nat.mod_eq_of_lt (by omega), Nat.mod_eq_of_lt (by omega)] at hstore
                exact hstore hin hlt x (hsees x hx)
              · exact hok false sz' g u hu hg (hk.trans hku le_rfl) fun hb => (by cases hb)
          refine wp_uvmalloc_loaded h hU hf (flags2perm_lt _) (fun hlt => ?_)
            (fun g t hle' ht hg hfill hk => ?_) fun t ht hk => ?_
          · exact hseg f s sz h hf (.refl _ _) (by omega) (fun _ _ => rfl)
              (fun v h₁ h₂ => by omega) fun _ hx => hx
          · refine hseg g t _ ht hg (hk.of_le hle) (by omega) (fun v hv => hfill.same v (.inl hv))
              (fun v h₁ h₂ => ?_) fun x hx => hx.filled hk hfill ?_
            · obtain ⟨pa, hpa, he, -⟩ := hfill.fresh v h₁ h₂
              exact ⟨pa, hpa, he⟩
            · exact Nat.or_lt_two_pow (n := 10) (by decide) (flags2perm_lt _)
          · rw [if_pos rfl, wp_pure]
            exact hok false sz f t ht hf (hk.of_le hle) fun hb => (by cases hb)

end Xv6
