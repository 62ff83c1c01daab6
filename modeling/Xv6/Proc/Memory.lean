import Xv6.Proc.Conserve

/-!
# sbrk and exec

What the system calls `sbrk` and `exec` do to the memory of the process that calls them.

* `sbrk_memory`: the pages that `sbrk` maps are zero, those it unmaps are given to the
  allocator, and no byte on the other pages changes. What a process gets back after it was
  unmapped is zero. The bytes on the last page that is left are kept, also those from the new
  size on (`sbrk_keeps_bytes`).
* `exec_argument_stack`: a new program finds its arguments on the stack.
* `exec_loads_segments`: it finds the segments of the file at their addresses, with their
  flags, and zeros elsewhere.
-/

namespace Xv6

variable {k : Kernel} {U : Multiset ℕ} {s : Procs} {p : Fin nproc} {n : ℤ}
  {file : List UInt8} {argv : List (List UInt8)} {segs : List Proghdr} {ph : Proghdr}
  {x : ℕ → UInt8} {sz a i : ℕ}

/-! ## The first process, and a program for it -/

/-- The processes after `userinit`. -/
def firstProcs : Procs := ((Machine.boot smallKernel smallVm).next smallKernel .userinit).procs

/-- The first process has grown to 5000 bytes. -/
def grownMachine : Machine := (Machine.mk firstProcs none).next smallKernel (.sbrk 0 5000 1)

/-- And it has stored a byte at 4500. -/
def storedProcs : Procs := (grownMachine.next smallKernel (.copyout 0 4500 [7])).procs

set_option maxRecDepth 100000 in
/-- No step panics, and the process has the size and the byte. -/
theorem procs_alive :
    (((Machine.boot smallKernel smallVm).next smallKernel .userinit).panic = none ∧
      (firstProcs.proc 0).state ≠ .unused ∧ (firstProcs.proc 0).sz = 0) ∧
    (Legal firstProcs ∧ (ProcAct.sbrk 0 5000 1).Enabled firstProcs ∧
      wp (sysSbrk smallKernel 0 5000 sbrkEager) (fun r _ => r ≠ none) (fun _ _ => False)
        firstProcs) ∧
    (grownMachine.panic = none ∧ Legal grownMachine.procs ∧
      (ProcAct.copyout 0 4500 [7]).Enabled grownMachine.procs) ∧
    (grownMachine.next smallKernel (.copyout 0 4500 [7])).panic = none ∧
      (storedProcs.proc 0).state ≠ .unused ∧ (storedProcs.proc 0).sz = 5000 ∧
      userByte storedProcs.vm.mem (space storedProcs 0) 4500 = 7 := by
  decide +kernel

theorem firstProcs_alive : (firstProcs.proc 0).state ≠ .unused ∧ (firstProcs.proc 0).sz = 0 :=
  procs_alive.1.2

theorem firstProcs_legal : (firstProcs.proc 0).sz ≤ trapframeVa := by
  rw [firstProcs_alive.2]
  exact Nat.zero_le _

theorem procInv_firstProcs : ProcInv smallKernel (managed smallKernel) firstProcs := by
  obtain ⟨hboot, -, hl⟩ := boot_inv smallKernel smallVm
  exact (machine_step (machineInv_boot smallKernel smallVm) hl ⟨hboot, by decide, rfl⟩).1.inv
    procs_alive.1.1

theorem procInv_storedProcs : ProcInv smallKernel (managed smallKernel) storedProcs := by
  obtain ⟨-, ⟨hl, hen, -⟩, ⟨hnone, hl', hen'⟩, hnone', -⟩ := procs_alive
  have hfirst : MachineInv smallKernel ⟨firstProcs, none⟩ :=
    ⟨procInv_firstProcs.refreed, by simp, fun _ => procInv_firstProcs⟩
  have hgrown := (machine_step hfirst hl ⟨rfl, hen, rfl⟩).1
  exact (machine_step hgrown hl' ⟨hnone, hen', rfl⟩).1.inv hnone'

/-- A file with two segments: two bytes in the file and five in memory, and three bytes and four,
    two pages further up. -/
def smallFile : List UInt8 :=
  le 4 elfMagic ++ le 28 0 ++ le 8 64 ++ le 16 0 ++ le 2 2 ++ le 6 0 ++
    (le 4 elfProgLoad ++ le 4 5 ++ le 8 176 ++ le 8 0 ++ le 8 0 ++ le 8 2 ++ le 8 5 ++
      le 8 4096) ++
    (le 4 elfProgLoad ++ le 4 6 ++ le 8 178 ++ le 8 8192 ++ le 8 8192 ++ le 8 3 ++ le 8 4 ++
      le 8 4096) ++
    [19, 0, 1, 2, 3]

/-- Its text. -/
def smallText : Proghdr := ⟨1, 5, 176, 0, 2, 5⟩

/-- Its data. -/
def smallData : Proghdr := ⟨1, 6, 178, 8192, 3, 4⟩

set_option maxRecDepth 1000 in
theorem segments_smallFile : segments smallFile = [smallText, smallData] ∧
    smallFile.length = 181 ∧ smallFile.getD 176 0 = 19 ∧ smallFile.getD 180 0 = 3 := by
  decide

set_option maxRecDepth 100000 in
/-- There is room for it, and for two arguments. -/
theorem buildImage_smallFile : wp (buildImage smallKernel (firstProcs.proc 0).sz
    (firstProcs.proc 0).pagetable (firstProcs.proc 0).trapframe smallFile [[97], [98, 99]])
    (fun img _ => img.isSome = true) (fun _ _ => True) firstProcs.vm := by
  decide +kernel

/-- When the image is built, `kexec` succeeds if it returns. -/
theorem wp_kexec_of_image (h : wp (buildImage k (s.proc p).sz (s.proc p).pagetable
      (s.proc p).trapframe file argv) (fun img _ => img.isSome = true) (fun _ _ => True) s.vm) :
    wp (kexec k p (some file) argv) (fun r _ => r = some argv.length) (fun _ _ => True) s := by
  simp only [kexec, wp_bind, wp_get, wp_liftVm]
  refine h.mono (fun img vm himg => ?_) fun _ _ h => h
  obtain ⟨img, rfl⟩ := Option.isSome_iff_exists.1 himg
  simp only [wp_bind, wp_liftVm, wp_setProc, wp_pure]
  refine wp_true.mono (fun _ _ _ => ?_) fun _ _ h => h
  refine wp_true.mono (fun _ _ _ => ?_) fun _ _ h => h
  refine wp_true.mono (fun _ _ _ => ?_) fun _ _ h => h
  exact wp_true.mono (fun _ _ _ => trivial) fun _ _ h => h

/-! ## sbrk -/

/-- `sbrk(n)`, for a process of size `sz`, and any choice of the calls of `kalloc` that fail.

    * An eager growth returns the old size, and the pages from `PGROUNDUP(sz)` to `sz + n` are
      mapped for the user to read and write, and are zero; or it fails, and no page of the
      process has changed.
    * A shrink by at most `sz` unmaps the pages from `PGROUNDUP(sz + n)` on, gives exactly
      these to the allocator, and keeps every byte below. However the process grows again and
      faults pages in, it reads zeros from there on.
    * A shrink by more than `sz` returns the old size, and changes nothing. -/
theorem sbrk_memory (h : ProcInv k U s) (hU : Managed k U) (hp : (s.proc p).state ≠ .unused)
    (hs : (s.proc p).sz ≤ trapframeVa) (hn : IsInt n) :
    (0 ≤ n → (s.proc p).sz + n.toNat ≤ trapframeVa →
      wp (sysSbrk k p n sbrkEager)
        (fun r t => r = some (s.proc p).sz ∧ Grown s t p n.toNat ∨ r = none ∧ SameUser s t p)
        (fun _ _ => False) s) ∧
    (n < 0 → -n ≤ (s.proc p).sz → ∀ m, wp (sysSbrk k p n m)
        (fun r t => r = some (s.proc p).sz ∧ Shrunk s t p ((s.proc p).sz + n).toNat ∧
          ∀ u, Regrown k U p t u → ∀ a < trapframeVa,
            userByte u.vm.mem (space u p) a =
              if a < pgRoundUp ((s.proc p).sz + n).toNat then userByte s.vm.mem (space s p) a
              else 0)
        (fun _ _ => False) s) ∧
    ((s.proc p).sz < -n → ∀ m, wp (sysSbrk k p n m)
        (fun r t => r = some (s.proc p).sz ∧ t = s) (fun _ _ => False) s) := by
  refine ⟨fun h₀ hle => ?_, fun h₀ h₁ m => ?_, fun hbig m => ?_⟩
  · refine wp_sysSbrk h hU hs hp hn (fun r t _ hd => ?_) fun _ hlt => by omega
    cases hd with
    | grown _ _ hg => exact .inl ⟨rfl, hg⟩
    | failed _ _ hsame => exact .inr ⟨rfl, hsame⟩
    | lazily hm => exact absurd rfl hm
    | shrunk hneg => omega
    | refused hbig => omega
  · refine wp_sysSbrk h hU hs hp hn (fun r t hk hd => ?_) fun _ hlt => by omega
    cases hd with
    | grown _ hpos => omega
    | failed _ hpos => omega
    | lazily _ hpos => omega
    | refused hbig => omega
    | shrunk _ _ hsh =>
      refine ⟨rfl, hsh, fun u hu a ha => ?_⟩
      have hsz : ((s.proc p).sz + n).toNat ≤ trapframeVa := by omega
      have hround : pgRoundUp ((s.proc p).sz + n).toNat =
          npages ((s.proc p).sz + n).toNat * pgsize := pgRoundUp_eq (by
        simp only [trapframeVa, trampolineVa, maxVa, pgsize] at hsz ⊢
        omega)
      have ht : (t.proc p).state ≠ .unused ∧ (t.proc p).sz ≤ trapframeVa := by
        rw [hsh.resized.proc, Function.update_self]
        exact ⟨hp, hsz⟩
      obtain ⟨-, hsees⟩ := hu.sees hU hk.inv ht.1 ht.2
      rw [hsees _ (hsh.sees (.self _ _)) a ha, hround]
  · refine wp_sysSbrk h hU hs hp hn (fun r t hk hd => ?_) fun _ hlt => by omega
    cases hd with
    | grown _ hpos => omega
    | failed _ hpos => omega
    | lazily _ hpos => omega
    | shrunk _ h₁ => omega
    | refused => exact ⟨rfl, rfl⟩

set_option maxRecDepth 100000 in
/-- The first process grows by 5000 bytes; and then, when it has stored a byte there, it shrinks by
    2000 bytes, and reads zero where the byte was if it grows again. -/
theorem sbrk_memory_first :
    (∃ t, sysSbrk smallKernel 0 5000 sbrkEager firstProcs = .ok (some 0) t ∧
      Grown firstProcs t 0 5000) ∧
    userByte storedProcs.vm.mem (space storedProcs 0) 4500 = 7 ∧
    ∃ t, sysSbrk smallKernel 0 (-2000) sbrkEager storedProcs = .ok (some 5000) t ∧
      Shrunk storedProcs t 0 3000 ∧ ∀ u, Regrown smallKernel (managed smallKernel) 0 t u →
        userByte u.vm.mem (space u 0) 4500 = 0 := by
  have hint : IsInt 5000 ∧ IsInt (-2000) := by norm_num [IsInt]
  obtain ⟨⟨-, hused₀, hsz₀⟩, ⟨-, -, hroom⟩, -, -, hused, hsz, hbyte⟩ := procs_alive
  refine ⟨?_, hbyte, ?_⟩
  · obtain ⟨r, t, hrun, ht⟩ := ((sbrk_memory procInv_firstProcs (managed_managed smallKernel)
      hused₀ firstProcs_legal hint.1).1 (by norm_num) (by rw [hsz₀]; decide)).exists_ok
    obtain ⟨rfl, hgrown⟩ := ht.resolve_right fun h => hroom.of_ok hrun h.1
    rw [hsz₀] at hrun
    exact ⟨t, hrun, hgrown⟩
  · obtain ⟨r, t, hrun, rfl, ht, hback⟩ := ((sbrk_memory procInv_storedProcs
      (managed_managed smallKernel) hused (by rw [hsz]; decide) hint.2).2.1 (by norm_num)
      (by rw [hsz]; norm_num) sbrkEager).exists_ok
    rw [hsz] at hrun ht hback
    exact ⟨t, hrun, ht, fun u hu => hback u hu 4500 (by decide)⟩

set_option maxRecDepth 100000 in
/-- It gives back 900 bytes, and obtains them again: the byte is there, since its page was never
    unmapped. -/
theorem sbrk_keeps_bytes : (storedProcs.proc 0).sz = 5000 ∧
    wp (do
        let r ← sysSbrk smallKernel 0 (-900) sbrkEager
        let r' ← sysSbrk smallKernel 0 900 sbrkEager
        pure (r, r'))
      (fun r u => r = (some 5000, some 4100) ∧ (u.proc 0).sz = 5000 ∧
        userByte u.vm.mem (space u 0) 4500 = 7) (fun _ _ => False) storedProcs := by
  decide +kernel

/-! ## The arguments of a new program -/

/-- If `kexec` succeeds, it returns the number of arguments, and `sp` and `a1` are the address
    of the array of their addresses, on the stack, which is the last page. The page below it is
    not for the user.

    While it pushes the arguments, nothing is stored below the stack, whether they fit or not,
    and no subtraction from the stack pointer wraps around. -/
theorem exec_argument_stack (h : ProcInv k U s) (hU : Managed k U)
    (hp : (s.proc p).state ≠ .unused) (hs : (s.proc p).sz ≤ trapframeVa)
    (hargc : argv.length < maxArg) (hargv : ∀ a ∈ argv, a.length < pgsize) :
    (∀ file, wp (kexec k p file argv)
      (fun r t => ∀ argc, r = some argc → argc = argv.length ∧
        register t p tfA1 = register t p tfSp ∧
        ∃ v ptrs, (t.proc p).sz = (v + 1 + 1) * pgsize ∧ pteU (space t p v) = false ∧
          pteV (space t p (v + 1)) = true ∧ pteU (space t p (v + 1)) = true ∧
          ArgStack (userByte t.vm.mem (space t p)) ((v + 1) * pgsize) (t.proc p).sz
            (register t p tfSp) argv ptrs)
      (fun _ _ => False) s) ∧
    ∀ R pt f vm v, Space U R pt f vm → 0 < v → v < userVpn → pteV (f v) = true →
      pteU (f v) = true →
      (∀ psz ppt, wp (pushStack k psz ppt pt ((v + 1) * pgsize) argv)
        (fun _ vm' => OnlyAbove (v * pgsize) f vm vm') (fun _ _ => False) vm) ∧
      ∀ sp, v * pgsize ≤ sp → sp ≤ (v + 1) * pgsize →
        ∀ n ∈ (argv.length + 1) * 8 :: argv.map (·.length + 1),
          pushSp sp n + n ≤ sp ∧ sp < pushSp sp n + n + 16 := by
  refine ⟨fun file => ?_, fun R pt f vm v hsp hpos hv hV hUs => ⟨fun psz ppt => ?_, ?_⟩⟩
  · refine wp_kexec h hU hs hp hargv (fun argc file t _ _ _ hx argc' he => ?_) fun t _ _ argc he => ?_
    · obtain rfl := Option.some.inj he
      obtain ⟨entry, hb⟩ := hx.built
      obtain ⟨ptrs, hargs⟩ := hb.args
      exact ⟨hx.argc_eq, hx.a1, guardPage file, ptrs, hb.size, hb.guard, hb.stack.1, hb.stack.2,
        hargs⟩
    · cases he
  · exact wp_pushStack hsp hU hv hV hUs hpos hargv fun _ _ _ _ hab _ => hab
  · intro sp hlo hhi n hn
    have hle : n ≤ pgsize := by
      rcases List.mem_cons.1 hn with rfl | hn
      · simp only [maxArg, pgsize] at *
        omega
      · obtain ⟨a, ha, rfl⟩ := List.mem_map.1 hn
        exact hargv a ha
    have htop := vpn_mul_lt (lt_maxVpn_of_user hv)
    have hvp : pgsize ≤ v * pgsize := Nat.le_mul_of_pos_left _ hpos
    have hsp : sp < 2 ^ 64 := by
      simp only [maxVa, pgsize] at *
      omega
    obtain ⟨h₁, h₂, -⟩ := pushSp_bounds hsp (hle.trans (hvp.trans hlo))
    exact ⟨h₁, h₂⟩

set_option maxRecDepth 100000 in
/-- The first process runs the file, with two arguments. -/
theorem exec_argument_stack_first :
    ∃ t, kexec smallKernel 0 (some smallFile) [[97], [98, 99]] firstProcs = .ok (some 2) t ∧
      register t 0 tfA1 = register t 0 tfSp ∧
      ∃ v ptrs, (t.proc 0).sz = (v + 1 + 1) * pgsize ∧ pteU (space t 0 v) = false ∧
        pteV (space t 0 (v + 1)) = true ∧ pteU (space t 0 (v + 1)) = true ∧
        ArgStack (userByte t.vm.mem (space t 0)) ((v + 1) * pgsize) (t.proc 0).sz
          (register t 0 tfSp) [[97], [98, 99]] ptrs := by
  have hargc : ([[97], [98, 99]] : List (List UInt8)).length < maxArg := by decide
  have hargv : ∀ a ∈ ([[97], [98, 99]] : List (List UInt8)), a.length < pgsize := by decide
  obtain ⟨r, t, hrun, ht⟩ := ((exec_argument_stack procInv_firstProcs (managed_managed smallKernel)
    firstProcs_alive.1 firstProcs_legal hargc hargv).1 (some smallFile)).exists_ok
  obtain rfl : r = some 2 := (wp_kexec_of_image buildImage_smallFile).of_ok hrun
  obtain ⟨-, hstack⟩ := ht 2 rfl
  exact ⟨t, hrun, hstack⟩

/-! ## The segments of a new program -/

theorem Ascending.le (h : Ascending sz segs) (hph : ph ∈ segs) : npages sz * pgsize ≤ ph.vaddr := by
  induction segs generalizing sz with
  | nil => cases hph
  | cons ph₀ segs ih =>
    obtain ⟨h₁, -, h₂⟩ := h
    rcases List.mem_cons.1 hph with rfl | hph
    · exact h₁
    · calc npages sz * pgsize ≤ ph₀.vaddr := h₁
        _ ≤ ph₀.stop := Nat.le_add_right _ _
        _ ≤ npages ph₀.stop * pgsize := le_npages_mul _
        _ ≤ ph.vaddr := ih h₂ hph

/-- The size is that of the last segment. -/
theorem Ascending.segsSize (h : Ascending sz segs) (hne : segs ≠ []) :
    segsSize segs sz = (segs.getLast hne).stop := by
  induction segs generalizing sz with
  | nil => exact absurd rfl hne
  | cons ph segs ih =>
    obtain ⟨h₁, -, h₂⟩ := h
    have hle := le_npages_mul sz
    have hstop : ph.vaddr ≤ ph.stop := Nat.le_add_right _ _
    rw [Xv6.segsSize, List.foldl_cons, Nat.max_eq_right (by omega), ← Xv6.segsSize]
    cases segs with
    | nil => rfl
    | cons ph' segs =>
      rw [ih h₂ (List.cons_ne_nil _ _)]
      exact congrArg Proghdr.stop (List.getLast_cons (List.cons_ne_nil _ _)).symm

/-- Two segments do not overlap. -/
theorem Ascending.apart {ph' : Proghdr} (h : Ascending sz segs) (hph : ph ∈ segs)
    (hph' : ph' ∈ segs) : ph = ph' ∨ ph.stop ≤ ph'.vaddr ∨ ph'.stop ≤ ph.vaddr := by
  induction segs generalizing sz with
  | nil => cases hph
  | cons ph₀ segs ih =>
    have hhead : ∀ ph₁ ∈ segs, ph₀.stop ≤ ph₁.vaddr := fun ph₁ h₁ =>
      le_trans (le_npages_mul _) (h.2.2.le h₁)
    rcases List.mem_cons.1 hph with e | hph
    · rcases List.mem_cons.1 hph' with e' | hph'
      · exact .inl (e.trans e'.symm)
      · exact .inr (.inl (e ▸ hhead ph' hph'))
    · rcases List.mem_cons.1 hph' with e' | hph'
      · exact .inr (.inr (e' ▸ hhead ph hph))
      · exact ih h.2.2 hph hph'

theorem Proghdr.length_bytes (h : ph.off + ph.filesz ≤ file.length) :
    (ph.bytes file).length = ph.filesz := by
  rw [Proghdr.bytes, List.length_take, List.length_drop]
  omega

/-- Bytes that are in no segment. -/
theorem storeSegs_of_not_mem (h : ∀ ph ∈ segs, a < ph.vaddr ∨ ph.vaddr + ph.filesz ≤ a) :
    storeSegs file segs x a = x a := by
  induction segs generalizing x with
  | nil => rfl
  | cons ph segs ih =>
    have hlen : (ph.bytes file).length ≤ ph.filesz := List.length_take_le _ _
    have hph := h ph List.mem_cons_self
    rw [storeSegs, List.foldl_cons, ← storeSegs,
      ih fun ph' h' => h ph' (List.mem_cons_of_mem _ h'), storeBytes_of_not_mem (by omega)]

/-- The bytes of a segment are not overwritten by those after it. -/
theorem storeSegs_of_mem (hasc : Ascending sz segs)
    (hin : ∀ ph ∈ segs, ph.off + ph.filesz ≤ file.length)
    (hfm : ∀ ph ∈ segs, ph.filesz ≤ ph.memsz) (hph : ph ∈ segs) (hi : i < ph.filesz) :
    storeSegs file segs x (ph.vaddr + i) = file.getD (ph.off + i) 0 := by
  induction segs generalizing sz x with
  | nil => cases hph
  | cons ph₀ segs ih =>
    rw [storeSegs, List.foldl_cons, ← storeSegs]
    rcases List.mem_cons.1 hph with rfl | hph
    · have hlen := Proghdr.length_bytes (hin ph List.mem_cons_self)
      have hle := hfm ph List.mem_cons_self
      have hstop := le_npages_mul ph.stop
      rw [Proghdr.stop] at hstop
      rw [storeSegs_of_not_mem fun ph' h' => .inl ?_, storeBytes_of_lt (by omega), Proghdr.bytes,
        List.getD_eq_getElem?_getD, List.getElem?_take_of_lt hi, List.getElem?_drop,
        ← List.getD_eq_getElem?_getD]
      have := hasc.2.2.le h'
      rw [Proghdr.stop] at this
      omega
    · exact ih hasc.2.2 (fun ph' h' => hin ph' (List.mem_cons_of_mem _ h'))
        (fun ph' h' => hfm ph' (List.mem_cons_of_mem _ h')) hph

theorem pteW_perm (ph : Proghdr) : pteW ph.perm = ph.flags.testBit 1 := by
  rw [Proghdr.perm, flags2perm, pteW_or, pteW_or, pteW_or]
  have h₁ : pteW permR = false := by rw [pteW]; decide
  have h₂ : pteW permU = false := by rw [pteW]; decide
  have h₃ : pteW permX = false := by rw [pteW]; decide
  have h₄ : pteW permW = true := by rw [pteW]; decide
  have h₅ : pteW 0 = false := by rw [pteW]; decide
  rw [h₁, h₂, apply_ite pteW, apply_ite pteW, h₃, h₄, h₅]
  cases ph.flags.testBit 1 <;> simp

theorem pteX_perm (ph : Proghdr) : pteX ph.perm = ph.flags.testBit 0 := by
  rw [Proghdr.perm, flags2perm, pteX_or, pteX_or, pteX_or]
  have h₁ : pteX permR = false := by rw [pteX]; decide
  have h₂ : pteX permU = false := by rw [pteX]; decide
  have h₃ : pteX permX = true := by rw [pteX]; decide
  have h₄ : pteX permW = false := by rw [pteX]; decide
  have h₅ : pteX 0 = false := by rw [pteX]; decide
  rw [h₁, h₂, apply_ite pteX, apply_ite pteX, h₃, h₄, h₅]
  cases ph.flags.testBit 0 <;> simp

/-- If `kexec` succeeds, the process finds the bytes of the file at the addresses of its
    segments, and zeros after them and everywhere else below the guard page of the stack. The
    pages of a segment have its flags, and the size is that of the last segment, with the pages
    of the stack.

    The segments are those of the headers of type `ELF_PROG_LOAD`. They are ascending, on
    different pages, none is empty, and their bytes are in the file. -/
theorem exec_loads_segments (h : ProcInv k U s) (hU : Managed k U)
    (hp : (s.proc p).state ≠ .unused) (hs : (s.proc p).sz ≤ trapframeVa)
    (hargv : ∀ a ∈ argv, a.length < pgsize) (hne : segments file ≠ [])
    (hasc : Ascending 0 (segments file)) (hin : InFile file (segments file)) :
    wp (kexec k p (some file) argv)
      (fun r t => r ≠ none →
        (∀ ph ∈ segments file,
          (∀ i < ph.filesz, userByte t.vm.mem (space t p) (ph.vaddr + i) =
            file.getD (ph.off + i) 0) ∧
          (∀ i, ph.filesz ≤ i → i < ph.memsz →
            userByte t.vm.mem (space t p) (ph.vaddr + i) = 0) ∧
          ∀ a, ph.vaddr ≤ a → a < ph.vaddr + ph.memsz →
            pteV (space t p (a / pgsize)) = true ∧ pteU (space t p (a / pgsize)) = true ∧
            pteR (space t p (a / pgsize)) = true ∧
            pteW (space t p (a / pgsize)) = ph.flags.testBit 1 ∧
            pteX (space t p (a / pgsize)) = ph.flags.testBit 0) ∧
        (∀ a < (t.proc p).sz - (userStack + 1) * pgsize,
          (∀ ph ∈ segments file, a < ph.vaddr ∨ ph.vaddr + ph.memsz ≤ a) →
          userByte t.vm.mem (space t p) a = 0) ∧
        (t.proc p).sz =
          pgRoundUp ((segments file).getLast hne).stop + (userStack + 1) * pgsize)
      (fun _ _ => False) s := by
  refine wp_kexec h hU hs hp hargv (fun argc file' t he _ _ hx _ => ?_) fun t _ _ hc =>
    absurd rfl hc
  obtain rfl := Option.some.inj he
  obtain ⟨entry, hb⟩ := hx.built
  have hsize := hb.size
  have hle := hx.le
  dsimp only at hsize
  have hfm : ∀ ph ∈ segments file, ph.filesz ≤ ph.memsz := fun ph hph => (hb.aligned ph hph).2
  have hguard : (guardPage file + 1) * pgsize ≤ (t.proc p).sz := by
    rw [hsize]
    exact Nat.mul_le_mul_right _ (Nat.le_succ _)
  have hlow : (t.proc p).sz - (userStack + 1) * pgsize = guardPage file * pgsize := by
    rw [hsize]
    simp only [userStack, pgsize]
    omega
  -- The segments are below the guard page.
  have hstop : ∀ ph ∈ segments file, ph.stop ≤ guardPage file * pgsize := fun ph hph =>
    le_trans (stop_le_segsSize hph 0) (le_npages_mul _)
  have hbyte : ∀ a < guardPage file * pgsize, userByte t.vm.mem (space t p) a =
      storeSegs file (segments file) (fun _ => 0) a := fun a ha => by
    refine hb.bytes hin a (lt_of_lt_of_le ha (Nat.mul_le_mul_right _ (Nat.le_succ _)))
  have hpages : ∀ ph ∈ segments file, ∀ a, ph.vaddr ≤ a → a < ph.vaddr + ph.memsz →
      ∃ pa, PageAddr pa ∧ space t p (a / pgsize) = mkPte pa ph.perm := fun ph hph a h₁ h₂ => by
    refine hb.flags hasc ph hph _ (Nat.div_le_div_right h₁) ?_
    rw [Nat.div_lt_iff_lt_mul pgsize_pos]
    exact lt_of_lt_of_le h₂ (le_npages_mul ph.stop)
  refine ⟨fun ph hph => ⟨fun i hi => ?_, fun i h₁ h₂ => ?_, fun a h₁ h₂ => ?_⟩, fun a ha hout => ?_,
    ?_⟩
  · have h₁ := hstop ph hph
    have h₂ := hfm ph hph
    rw [Proghdr.stop] at h₁
    rw [hbyte _ (by omega)]
    exact storeSegs_of_mem hasc hin.2 hfm hph hi
  · have hle := hstop ph hph
    rw [Proghdr.stop] at hle
    rw [hbyte _ (by omega)]
    refine storeSegs_of_not_mem fun ph' hph' => ?_
    have hfm' := hfm ph' hph'
    rcases hasc.apart hph hph' with rfl | h | h
    · omega
    · rw [Proghdr.stop] at h
      omega
    · rw [Proghdr.stop] at h
      omega
  · obtain ⟨pa, -, he⟩ := hpages ph hph a h₁ h₂
    rw [he, pteV_mkPte, pteU_mkPte, pteR_mkPte, pteW_mkPte, pteX_mkPte, pteW_perm, pteX_perm,
      Proghdr.perm, pteU_userPerm, pteR_userPerm]
    exact ⟨rfl, rfl, rfl, rfl, rfl⟩
  · rw [hlow] at ha
    rw [hbyte a ha]
    refine storeSegs_of_not_mem fun ph hph => ?_
    have h₁ := hfm ph hph
    have h₂ := hout ph hph
    omega
  · have hlast : segsSize (segments file) 0 ≤ guardPage file * pgsize := le_npages_mul _
    have hround : pgRoundUp (segsSize (segments file) 0) =
        npages (segsSize (segments file) 0) * pgsize := pgRoundUp_eq (by
      simp only [trapframeVa, trampolineVa, maxVa, pgsize] at *
      omega)
    rw [← hasc.segsSize hne, hround, hsize, guardPage]
    simp only [userStack, pgsize]
    omega

set_option maxRecDepth 100000 in
/-- The first process runs it: it finds the bytes of both segments, with zeros behind them and
    between them. -/
theorem exec_loads_segments_first :
    ∃ t, kexec smallKernel 0 (some smallFile) [[97], [98, 99]] firstProcs = .ok (some 2) t ∧
      userByte t.vm.mem (space t 0) 0 = 19 ∧ userByte t.vm.mem (space t 0) 8194 = 3 ∧
      userByte t.vm.mem (space t 0) 4 = 0 ∧ userByte t.vm.mem (space t 0) 8195 = 0 ∧
      (∀ a, 5 ≤ a → a < 8192 → userByte t.vm.mem (space t 0) a = 0) ∧
      pteW (space t 0 0) = false ∧ pteW (space t 0 2) = true ∧ (t.proc 0).sz = 20480 := by
  obtain ⟨hsegs, hlen, htext, hdata⟩ := segments_smallFile
  have hasc : Ascending 0 (segments smallFile) := by
    rw [hsegs]
    exact ⟨by decide, by decide, by decide, by decide, trivial⟩
  have hin : InFile smallFile (segments smallFile) := by
    rw [hsegs]
    refine ⟨by rw [hlen]; decide, ?_⟩
    rw [hlen]
    decide
  have hne : segments smallFile ≠ [] := by
    rw [hsegs]
    exact List.cons_ne_nil _ _
  have hargv : ∀ a ∈ ([[97], [98, 99]] : List (List UInt8)), a.length < pgsize := by decide
  obtain ⟨r, t, hrun, ht⟩ := (exec_loads_segments procInv_firstProcs (managed_managed smallKernel)
    firstProcs_alive.1 firstProcs_legal hargv hne hasc hin).exists_ok
  obtain rfl : r = some 2 := (wp_kexec_of_image buildImage_smallFile).of_ok hrun
  obtain ⟨hseg, hgap, hsz⟩ := ht (Option.some_ne_none 2)
  simp only [hsegs] at hseg hgap hsz
  have hstop : pgRoundUp smallData.stop + (userStack + 1) * pgsize = 20480 := by decide
  have hbelow : 20480 - (userStack + 1) * pgsize = 12288 := by decide
  have hsz : (t.proc 0).sz = 20480 := hsz.trans hstop
  obtain ⟨hfile₁, hzero₁, hflags₁⟩ := hseg smallText (by decide)
  obtain ⟨hfile₂, hzero₂, hflags₂⟩ := hseg smallData (by decide)
  refine ⟨t, hrun, (hfile₁ 0 (by decide)).trans htext, (hfile₂ 2 (by decide)).trans hdata,
    hzero₁ 4 (by decide) (by decide), hzero₂ 3 (by decide) (by decide), fun a h₁ h₂ => ?_,
    (hflags₁ 0 (by decide) (by decide)).2.2.2.1, (hflags₂ 8192 (by decide) (by decide)).2.2.2.1,
    hsz⟩
  refine hgap a (by rw [hsz, hbelow]; omega) fun ph hph => ?_
  simp only [List.mem_cons, List.not_mem_nil, or_false] at hph
  rcases hph with rfl | rfl
  · exact .inr h₁
  · exact .inl h₂

end Xv6
