import Xv6.Mkfs.Basic
import Xv6.Fs.Content

/-!
# Writing the image

What each part of `mkfs` does to the image, if there is room: `iappend` appends to a file, and takes
the blocks that this needs (`need`), be they direct or behind the indirect block; `ialloc` takes the
next inode; and with every argument, an entry is added to the root directory and a file is filled.

Between two of these steps the image holds the files that were added (`Whole`); in `iappend`, the
inode in memory is ahead of the image (`Writing`).
-/

namespace Xv6

namespace Mkfs

open Fs (tDir tFile rootIno)

variable {s t : Image} {F : ℕ → Option FileSpec} {f : FileSpec} {i n sec : ℕ} {e : Option ℕ}
  {din x : Dinode} {p : List UInt8} {E : Failure → Image → Prop}

/-! ## Blocks and inodes -/

theorem wp_assert {q : Prop} [Decidable q] (hq : q) {Q : PUnit → Image → Prop} (hQ : Q ⟨⟩ s) :
    wp (assert q) Q E s := by
  rw [assert, if_pos hq]
  exact hQ

theorem wp_rsect {Q : Block → Image → Prop} (h : sec < s.sectors) (hQ : Q (s.disk sec) s) :
    wp (rsect sec) Q E s := by
  rw [rsect, wp_bind, wp_get, if_pos h]
  exact hQ

theorem wp_wsect {Q : PUnit → Image → Prop} (h : sec < s.sectors) {buf : Block}
    (hQ : Q ⟨⟩ { s with disk := Function.update s.disk sec buf }) : wp (wsect sec buf) Q E s := by
  rw [wsect, wp_modify, max_eq_left (Nat.succ_le_of_lt h)]
  exact hQ

theorem wp_nextBlock {Q : ℕ → Image → Prop}
    (hQ : Q s.freeblock { s with freeblock := s.freeblock + 1 }) : wp nextBlock Q E s := hQ

theorem iblock_lt (hi : i < ninodes) : sb.iblock i < fssize :=
  (wf_sb.iblock_lt hi).trans (by decide)

theorem wp_rinode {Q : Dinode → Image → Prop} (hs : s.sectors = fssize) (hi : i < ninodes)
    (hQ : Q (Disk.dinode sb s.disk i) s) : wp (rinode i) Q E s := by
  rw [rinode, wp_bind]
  exact wp_rsect (hs ▸ iblock_lt hi) hQ

theorem wp_winode {Q : PUnit → Image → Prop} (hs : s.sectors = fssize) (hi : i < ninodes)
    (hQ : Q ⟨⟩ { s with disk := Disk.putDinode sb s.disk i x }) : wp (winode i x) Q E s := by
  have hlt : sb.iblock i < s.sectors := hs ▸ iblock_lt hi
  rw [winode, wp_bind]
  exact wp_rsect hlt (wp_wsect hlt hQ)

/-! ## Appending to a file -/

/-- The blocks of a file of the given length, with its indirect block. -/
def need (len : ℕ) : ℕ := (len + (bsize - 1)) / bsize + if ndirect * bsize < len then 1 else 0

theorem need_mono {a b : ℕ} (h : a ≤ b) : need a ≤ need b := by
  unfold need bsize ndirect
  split <;> split <;> omega

/-- A new block is needed at the end of a block. -/
theorem need_lt {off : ℕ} (h : off % bsize = 0) : need off + 1 ≤ need (off + 1) := by
  unfold need bsize ndirect at *
  split <;> split <;> omega

/-- As many blocks as for the first byte. -/
theorem need_add {off m : ℕ} (hm : 0 < m) (h : off % bsize + m ≤ bsize) :
    need (off + m) = need (off + 1) := by
  unfold need bsize ndirect at *
  split <;> split <;> omega

/-- The image holds the files `F`, but the inode `i` is `din` in memory. -/
structure Writing (i : ℕ) (din : Dinode) (F : ℕ → Option FileSpec) (n : ℕ) (e : Option ℕ)
    (s : Image) : Prop where
  built : Built (Function.update (Disk.dinode sb s.disk) i din) s.disk s.freeblock F e
  sectors : s.sectors = fssize
  freeinode : s.freeinode = n

/-- The image holds the files `F`. -/
structure Whole (F : ℕ → Option FileSpec) (n : ℕ) (s : Image) : Prop where
  built : Built (Disk.dinode sb s.disk) s.disk s.freeblock F none
  sectors : s.sectors = fssize
  freeinode : s.freeinode = n

theorem Whole.writing (h : Whole F n s) (i : ℕ) :
    Writing i (Disk.dinode sb s.disk i) F n none s := by
  refine ⟨?_, h.sectors, h.freeinode⟩
  rw [Function.update_eq_self]
  exact h.built

namespace Writing

theorem alloced (h : Writing i din F n e s) (hf : F i = some f) :
    Alloced sb (Function.update (Disk.dinode sb s.disk) i din) i := h.built.alloced hf

theorem stored_addr (h : Writing i din F n e s) (hf : F i = some f) (k : Fin (ndirect + 1)) :
    stored sb (Function.update (Disk.dinode sb s.disk) i din) s.disk (i, .addr k) =
      din.addrs k := by
  rw [Xv6.stored_addr (h.alloced hf), Function.update_self]

/-- A block is taken for a slot of the inode. -/
theorem setAddr (h : Writing i din F n none s) (hf : F i = some f) {k : Fin (ndirect + 1)}
    (hk : din.addrs k = 0) (hn : s.freeblock < fssize)
    (he : ∀ bn, slotOf bn = .addr k → e = some i ∧ bn * bsize = f.data.length) :
    Writing i (din.setAddr k s.freeblock) F n e { s with freeblock := s.freeblock + 1 } := by
  have hb := h.built.setAddr hf (by rwa [Function.update_self]) hn he
  rw [Function.update_idem, Function.update_self] at hb
  exact ⟨hb, h.sectors, h.freeinode⟩

/-- The first block behind the data is none of the file. -/
theorem mod_eq_zero (h : Writing i din F n e s) (hf : F i = some f)
    (hz : stored sb (Function.update (Disk.dinode sb s.disk) i din) s.disk
      (i, slotOf (f.data.length / bsize)) = 0) : f.data.length % bsize = 0 := by
  have hle := not_lt.1 fun hlt => h.built.full i f hf _ hlt hz
  have := Nat.div_add_mod' f.data.length bsize
  omega

/-- A file with data behind the direct blocks has an indirect block. -/
theorem length_eq (h : Writing i din F n e s) (hf : F i = some f)
    (hlo : ndirect ≤ f.data.length / bsize) (hz : din.addrs (Fin.last ndirect) = 0) :
    f.data.length = ndirect * bsize := by
  have hle := (Nat.le_div_iff_mul_le (by decide)).1 hlo
  by_contra hne
  have hst := h.built.full i f hf ndirect (lt_of_le_of_ne hle (Ne.symm hne))
  rw [show slotOf ndirect = .entry 0 from Built.slotOf_entry 0, stored_entry_of_eq_zero] at hst
  · exact hst rfl
  · rwa [Function.update_self]

theorem freeblock_ne_zero (h : Writing i din F n e s) : s.freeblock ≠ 0 :=
  (Nat.lt_of_lt_of_le (by decide : 0 < nmeta) h.built.lo).ne'

end Writing

/-- The indirect block. -/
theorem wp_indirectOf (h : Writing i { din with size := f.data.length } F n none s)
    (hf : F i = some f) (hroom : din.addrs (Fin.last ndirect) = 0 → s.freeblock < fssize) :
    wp (indirectOf din) (fun din' t => Writing i { din' with size := f.data.length } F n none t ∧
      din'.addrs (Fin.last ndirect) ≠ 0 ∧
      t.freeblock = s.freeblock + if din.addrs (Fin.last ndirect) = 0 then 1 else 0) E s := by
  rw [indirectOf]
  split
  next hz =>
    rw [wp_bind]
    refine wp_nextBlock ?_
    refine ⟨h.setAddr hf hz (hroom hz) fun bn hbn => (slotOf_ne_last bn hbn).elim, ?_, rfl⟩
    rw [Dinode.setAddr_self]
    exact h.freeblock_ne_zero
  next hnz => exact ⟨h, hnz, rfl⟩

/-- An entry of the indirect block. -/
theorem wp_entryOf (h : Writing i { din with size := f.data.length } F n none s)
    (hf : F i = some f) (hlo : ndirect ≤ f.data.length / bsize)
    (hmax : f.data.length / bsize < maxfile) (ha : din.addrs (Fin.last ndirect) ≠ 0)
    (hroom : f.data.length % bsize = 0 → s.freeblock < fssize) :
    wp (entryOf (din.addrs (Fin.last ndirect)) (f.data.length / bsize - ndirect)) (fun b t =>
      Writing i { din with size := f.data.length } F n (some i) t ∧
      stored sb (Function.update (Disk.dinode sb t.disk) i { din with size := f.data.length })
        t.disk (i, slotOf (f.data.length / bsize)) = b ∧ b ≠ 0 ∧
      t.freeblock ≤ s.freeblock + if f.data.length % bsize = 0 then 1 else 0) E s := by
  obtain ⟨j, hj⟩ := Nat.exists_eq_add_of_le hlo
  have hj' : j < nindirect := by
    rw [hj] at hmax
    exact Nat.lt_of_add_lt_add_left hmax
  have hsub : f.data.length / bsize - ndirect = j := by rw [hj, Nat.add_sub_cancel_left]
  have hlast : (Function.update (Disk.dinode sb s.disk) i
      { din with size := f.data.length } i).addrs (Fin.last ndirect) =
      din.addrs (Fin.last ndirect) := by rw [Function.update_self]
  have hst : stored sb (Function.update (Disk.dinode sb s.disk) i
      { din with size := f.data.length }) s.disk (i, slotOf (f.data.length / bsize)) =
      Disk.entry s.disk (din.addrs (Fin.last ndirect)) j := by
    rw [hj, Built.slotOf_entry, stored_entry (h.alloced hf) (by rwa [hlast]) hj', hlast]
  have hr := h.built.stored_range (x := (i, .addr (Fin.last ndirect))) (by rwa [h.stored_addr hf])
  rw [h.stored_addr hf] at hr
  have hsec : din.addrs (Fin.last ndirect) < s.sectors := h.sectors ▸ hr.2.trans_le h.built.hi
  rw [entryOf, wp_bind, hsub]
  refine wp_rsect hsec ?_
  split
  next hz =>
    have hmod := h.mod_eq_zero hf (hst.trans hz)
    have hlen : (ndirect + j) * bsize = f.data.length := by
      rw [← hj, Nat.div_mul_cancel (Nat.dvd_of_mod_eq_zero hmod)]
    have hb := h.built.setEntry hf (by rwa [hlast]) hj' (by rw [hlast]; exact hz) (hroom hmod) hlen
    rw [hlast] at hb
    have hb' : Built (Function.update (Disk.dinode sb (Disk.putEntry s.disk
        (din.addrs (Fin.last ndirect)) j s.freeblock)) i { din with size := f.data.length })
        _ _ F (some i) := hb.congr fun k hk => by
      by_cases hki : k = i
      · rw [hki, Function.update_self, Function.update_self]
      · rw [Function.update_of_ne hki, Function.update_of_ne hki]
        exact Disk.dinode_update_data wf_sb hk hr.1
    rw [wp_bind]
    refine wp_nextBlock ?_
    rw [wp_bind]
    refine wp_wsect (s := { s with freeblock := s.freeblock + 1 }) hsec ?_
    refine ⟨⟨hb', h.sectors, h.freeinode⟩, ?_, h.freeblock_ne_zero, ?_⟩
    · change stored sb (Function.update (Disk.dinode sb (Disk.putEntry s.disk
        (din.addrs (Fin.last ndirect)) j s.freeblock)) i { din with size := f.data.length })
        (Disk.putEntry s.disk (din.addrs (Fin.last ndirect)) j s.freeblock) _ = s.freeblock
      rw [hj, Built.slotOf_entry, stored_entry (hb'.alloced hf) (by rwa [Function.update_self]) hj',
        Function.update_self, Disk.entry_putEntry hj' ((hroom hmod).trans (by decide)), if_pos rfl]
    · rw [if_pos hmod]
  next hnz => exact ⟨⟨h.built.pending i, h.sectors, h.freeinode⟩, hst, hnz, Nat.le_add_right _ _⟩

/-- The block behind the data. -/
theorem wp_blockOf (h : Writing i { din with size := f.data.length } F n none s)
    (hf : F i = some f) (hmax : f.data.length / bsize < maxfile)
    (hroom : s.freeblock + need (f.data.length + 1) ≤ fssize + need f.data.length) :
    wp (blockOf din (f.data.length / bsize)) (fun r t =>
      Writing i { r.1 with size := f.data.length } F n (some i) t ∧
      stored sb (Function.update (Disk.dinode sb t.disk) i { r.1 with size := f.data.length })
        t.disk (i, slotOf (f.data.length / bsize)) = r.2 ∧ r.2 ≠ 0 ∧
      t.freeblock + need f.data.length ≤ s.freeblock + need (f.data.length + 1)) E s := by
  rw [blockOf]
  split
  next hlt =>
    have hslot : slotOf (f.data.length / bsize) =
        .addr ⟨f.data.length / bsize, Nat.lt_succ_of_lt hlt⟩ := dif_pos hlt
    have hst := h.stored_addr hf ⟨f.data.length / bsize, Nat.lt_succ_of_lt hlt⟩
    rw [← hslot] at hst
    split
    next hz =>
      have hmod := h.mod_eq_zero hf (hst.trans hz)
      have hcost := need_lt hmod
      have hw := h.setAddr (e := some i) hf hz (by omega) fun bn hbn => ⟨rfl, by
        rw [slotOf_inj (hbn.trans hslot.symm), Nat.div_mul_cancel (Nat.dvd_of_mod_eq_zero hmod)]⟩
      rw [wp_bind]
      refine wp_nextBlock ⟨hw, ?_, h.freeblock_ne_zero, ?_⟩
      · have hst' := hw.stored_addr hf ⟨f.data.length / bsize, Nat.lt_succ_of_lt hlt⟩
        rw [hslot]
        exact hst'.trans (Dinode.setAddr_self _ _ _)
      · dsimp only
        omega
    next hnz =>
      exact ⟨⟨h.built.pending i, h.sectors, h.freeinode⟩, hst, hnz,
        Nat.add_le_add_left (need_mono (Nat.le_succ _)) _⟩
  next hge =>
    have hlo := not_lt.1 hge
    have hmono : need f.data.length ≤ need (f.data.length + 1) := need_mono (Nat.le_succ _)
    -- Both an indirect block and a block are needed behind the direct blocks.
    have hboth : din.addrs (Fin.last ndirect) = 0 →
        need f.data.length + 2 = need (f.data.length + 1) := fun hz => by
      rw [h.length_eq hf hlo hz]
      decide
    have hone : f.data.length % bsize = 0 → need f.data.length + 1 ≤ need (f.data.length + 1) :=
      need_lt
    rw [wp_bind]
    refine (wp_indirectOf h hf fun hz => ?_).mono (fun din' t ht => ?_) fun _ _ he => he
    · have := hboth hz
      omega
    obtain ⟨hw, hnz, hfree⟩ := ht
    rw [wp_bind]
    refine (wp_entryOf hw hf hlo hmax hnz fun hmod => ?_).mono (fun b u hu => ?_) fun _ _ he => he
    · have := hone hmod
      split at hfree <;> omega
    · obtain ⟨hwu, hst, hb, hle⟩ := hu
      refine ⟨hwu, hst, hb, ?_⟩
      split at hfree <;> split at hle <;> omega

/-- The loop of `iappend`. -/
theorem wp_iappendLoop {fuel : ℕ} (h : Writing i { din with size := f.data.length } F n none s)
    (hf : F i = some f) (hfuel : p.length ≤ fuel)
    (hmax : f.data.length + p.length ≤ maxfile * bsize)
    (hroom : s.freeblock + need (f.data.length + p.length) ≤ fssize + need f.data.length) :
    wp (iappendLoop fuel din f.data.length p) (fun r t =>
      Writing i { r.1 with size := r.2 } (Function.update F i (some ⟨f.type, f.data ++ p⟩)) n none
        t ∧
      t.freeblock + need f.data.length ≤ s.freeblock + need (f.data.length + p.length)) E s := by
  have hnil : ∀ {F : ℕ → Option FileSpec} {f : FileSpec}, F i = some f →
      Function.update F i (some ⟨f.type, f.data ++ []⟩) = F := fun hf =>
    Function.update_eq_self_iff.2 (by rw [hf, List.append_nil])
  induction fuel generalizing F f din p s with
  | zero =>
    obtain rfl := List.eq_nil_of_length_eq_zero (Nat.le_zero.1 hfuel)
    rw [iappendLoop, wp_pure, hnil hf]
    exact ⟨h, le_rfl⟩
  | succ fuel ih =>
    rw [iappendLoop]
    split
    next hp =>
      subst hp
      rw [wp_pure, hnil hf]
      exact ⟨h, le_rfl⟩
    next hp =>
      have hpos := List.length_pos_of_ne_nil hp
      have hsplit := Nat.div_add_mod' f.data.length bsize
      have hmodlt : f.data.length % bsize < bsize := Nat.mod_lt _ (by decide)
      -- The part of the data that goes to this block.
      generalize hm : min p.length ((f.data.length / bsize + 1) * bsize - f.data.length) = m
      have hblock : (f.data.length / bsize + 1) * bsize - f.data.length =
          bsize - f.data.length % bsize := by
        rw [Nat.add_mul, Nat.one_mul]
        omega
      have hmpos : 0 < m := by omega
      have hmle : m ≤ p.length := by omega
      have hmfit : f.data.length % bsize + m ≤ bsize := by omega
      have hlen : (p.take m).length = m := List.length_take_of_le hmle
      have hbn : f.data.length / bsize < maxfile := (Nat.div_lt_iff_lt_mul (by decide)).2 (by omega)
      have hcost := need_add hmpos hmfit
      have hrest : need (f.data.length + m) ≤ need (f.data.length + p.length) :=
        need_mono (Nat.add_le_add_left hmle _)
      rw [wp_bind]
      refine wp_assert hbn ?_
      rw [wp_bind]
      refine (wp_blockOf h hf hbn (by omega)).mono (fun r t ht => ?_) fun _ _ he => he
      obtain ⟨hw, hst, hb, hfree⟩ := ht
      have hr := hw.built.stored_range (x := (i, slotOf (f.data.length / bsize))) (by rwa [hst])
      rw [hst] at hr
      have hsec : r.2 < t.sectors := hw.sectors ▸ hr.2.trans_le hw.built.hi
      have hoff : f.data.length - f.data.length / bsize * bsize = f.data.length % bsize := by omega
      have happ := hw.built.append hf (l := p.take m) (List.ne_nil_of_length_pos (by rwa [hlen]))
        hst hb (by rwa [hlen])
      rw [Function.update_idem, Function.update_self, hlen] at happ
      have hw' : Writing i { r.1 with size := (f.data ++ p.take m).length }
          (Function.update F i (some ⟨f.type, f.data ++ p.take m⟩)) n none
          { t with
            disk := Function.update t.disk r.2
              ((t.disk r.2).write (f.data.length % bsize) (p.take m)) } := by
        refine ⟨?_, hw.sectors, hw.freeinode⟩
        rw [List.length_append, hlen]
        refine happ.congr fun k hk => ?_
        by_cases hki : k = i
        · rw [hki, Function.update_self, Function.update_self]
        · rw [Function.update_of_ne hki, Function.update_of_ne hki]
          exact Disk.dinode_update_data wf_sb hk hr.1
      have hdrop : (p.drop m).length = p.length - m := List.length_drop
      have hlen' : (f.data ++ p.take m).length = f.data.length + m := by
        rw [List.length_append, hlen]
      have hsum : f.data.length + m + (p.length - m) = f.data.length + p.length := by omega
      have hroom' : t.freeblock + need (f.data.length + p.length) ≤
          fssize + need (f.data.length + m) := by omega
      have hrec := @ih _ _ ⟨f.type, f.data ++ p.take m⟩ r.1 (p.drop m) hw'
        (Function.update_self i _ F) (by omega) (by rwa [hlen', hdrop, hsum])
        (by rwa [hlen', hdrop, hsum])
      rw [Function.update_idem] at hrec
      dsimp only at hrec
      rw [hlen', hdrop, hsum, List.append_assoc, List.take_append_drop] at hrec
      rw [wp_bind]
      refine wp_rsect hsec ?_
      rw [wp_bind]
      refine wp_wsect hsec ?_
      rw [hoff, hm]
      refine hrec.mono (fun r' u hu => ⟨hu.1, ?_⟩) fun _ _ he => he
      have := hu.2
      omega

/-- The inode is written back. -/
theorem Writing.whole (h : Writing i din F n none s) (hf : F i = some f)
    (hlen : f.data.length < 2 ^ 32) :
    Whole F n { s with disk := Disk.putDinode sb s.disk i din } := by
  have hi := (h.built.range i f hf).1
  have hfits := h.built.fits hf hlen
  rw [Function.update_self] at hfits
  have hI : Disk.dinode sb (Disk.putDinode sb s.disk i din) =
      Function.update (Disk.dinode sb s.disk) i din := by
    funext j
    rw [Disk.dinode_putDinode hfits, Function.update_apply]
  refine ⟨?_, h.sectors, h.freeinode⟩
  change Built (Disk.dinode sb (Disk.putDinode sb s.disk i din)) _ _ _ _
  rw [hI]
  refine h.built.congr_disk fun c hc => Disk.putDinode_of_ne ?_
  have hlo : sb.inodestart ≤ sb.iblock i := Nat.le_add_left _ _
  have hhi := wf_sb.iblock_lt hi
  have hbm : sb.bmapstart < nmeta := wf_sb.bmapstart_lt
  omega

/-- `iappend` appends. -/
theorem wp_iappend (h : Whole F n s) (hf : F i = some f)
    (hmax : f.data.length + p.length ≤ maxfile * bsize)
    (hroom : s.freeblock + need (f.data.length + p.length) ≤ fssize + need f.data.length) :
    wp (iappend i p) (fun _ t => Whole (Function.update F i (some ⟨f.type, f.data ++ p⟩)) n t ∧
      t.freeblock + need f.data.length ≤ s.freeblock + need (f.data.length + p.length)) E s := by
  have hi := (h.built.range i f hf).1
  have hsize := h.built.size_eq hf
  have hw := h.writing i
  rw [iappend, wp_bind]
  refine wp_rinode h.sectors hi ?_
  rw [wp_bind, hsize]
  have hw' : Writing i { Disk.dinode sb s.disk i with size := f.data.length } F n none s := by
    rw [← hsize]
    exact hw
  refine (wp_iappendLoop hw' hf le_rfl hmax hroom).mono (fun r t ht => ?_) fun _ _ he => he
  refine wp_winode ht.1.sectors hi ⟨ht.1.whole (Function.update_self i _ F) ?_, ht.2⟩
  change (f.data ++ p).length < 2 ^ 32
  rw [List.length_append]
  exact hmax.trans_lt (by decide)

/-- `ialloc` takes the next inode. -/
theorem wp_ialloc (h : Whole F n s) (hn : n < ninodes) (hF : F n = none) {type : Int16}
    (htype : type ≠ 0) :
    wp (ialloc type) (fun r t => r = n ∧ Whole (Function.update F n (some ⟨type, []⟩)) (n + 1) t ∧
      t.freeblock = s.freeblock) E s := by
  rw [ialloc, wp_bind, wp_get, wp_bind, wp_set, wp_bind, h.freeinode]
  refine wp_winode h.sectors hn ⟨rfl, ?_, rfl⟩
  have hw : Writing n { Dinode.new type with nlink := 1 } (Function.update F n (some ⟨type, []⟩))
      (n + 1) none { s with freeinode := n + 1 } := ⟨h.built.take hn hF htype, h.sectors, rfl⟩
  exact hw.whole (Function.update_self n _ F) (Nat.two_pow_pos 32)

/-! ## The whole program -/

/-- The entries of the root directory. -/
def rootData (args : List Arg) : List UInt8 :=
  dirent rootIno [46] ++ dirent rootIno [46, 46] ++
    (args.zipIdx 2).flatMap fun x => dirent x.2 x.1.name

/-- The files of the image. -/
def filesOf (args : List Arg) (i : ℕ) : Option FileSpec :=
  if i = rootIno then some ⟨tDir, rootData args⟩
  else if 2 ≤ i then args[i - 2]?.map fun a => ⟨tFile, a.data⟩
  else none

/-- The files fit in the image, and have names that fit in an entry. -/
structure Fits (args : List Arg) : Prop where
  count : args.length + 2 ≤ ninodes
  shortname : ∀ a ∈ args, 47 ∉ a.shortname
  name : ∀ a ∈ args, a.name.length ≤ dirsiz
  size : ∀ a ∈ args, a.data.length ≤ maxfile * bsize
  blocks : nmeta + need (16 * (args.length + 2)) + (args.map fun a => need a.data.length).sum ≤
    fssize

@[simp] theorem length_dirent (i : ℕ) (name : List UInt8) : (dirent i name).length = 16 := by
  rw [dirent, Dirent.bytes, List.length_append, length_le, length_strncpy]
  rfl

variable {args done : List Arg} {a : Arg}

theorem rootData_append : rootData (done ++ [a]) =
    rootData done ++ dirent (done.length + 2) a.name := by
  rw [rootData, List.zipIdx_append, List.flatMap_append, ← List.append_assoc, Nat.add_comm 2]
  simp [rootData]

@[simp] theorem length_rootData (args : List Arg) :
    (rootData args).length = 16 * (args.length + 2) := by
  induction args using List.reverseRecOn with
  | nil => rfl
  | append_singleton args a ih =>
    rw [rootData_append, List.length_append, ih, length_dirent, List.length_append]
    rfl

theorem add_two_ne_root (k : ℕ) : k + 2 ≠ rootIno := by
  unfold rootIno
  omega

theorem filesOf_root (args : List Arg) :
    filesOf args rootIno = some ⟨tDir, rootData args⟩ := if_pos rfl

theorem filesOf_file {k : ℕ} (h : args[k]? = some a) :
    filesOf args (k + 2) = some ⟨tFile, a.data⟩ := by
  rw [filesOf, if_neg (add_two_ne_root _), if_pos (Nat.le_add_left 2 k), Nat.add_sub_cancel, h]
  rfl

theorem filesOf_next (args : List Arg) : filesOf args (args.length + 2) = none := by
  rw [filesOf, if_neg (add_two_ne_root _), if_pos (Nat.le_add_left 2 _), Nat.add_sub_cancel,
    List.getElem?_eq_none le_rfl]
  rfl

/-- One more file. -/
theorem filesOf_append : filesOf (done ++ [a]) =
    Function.update (Function.update (filesOf done) rootIno
      (some ⟨tDir, rootData done ++ dirent (done.length + 2) a.name⟩)) (done.length + 2)
      (some ⟨tFile, a.data⟩) := by
  funext i
  rw [Function.update_apply, Function.update_apply]
  by_cases hroot : i = rootIno
  · subst hroot
    rw [filesOf_root, rootData_append, if_neg (add_two_ne_root _).symm, if_pos rfl]
  · rw [if_neg hroot, filesOf, if_neg hroot, filesOf, if_neg hroot]
    by_cases h2 : 2 ≤ i
    · rw [if_pos h2, if_pos h2]
      obtain ⟨k, rfl⟩ := Nat.exists_eq_add_of_le' h2
      rw [Nat.add_sub_cancel]
      split
      next h =>
        rw [Nat.add_right_cancel h, List.getElem?_concat_length]
        rfl
      next h =>
        have hk : k ≠ done.length := fun hk => h (by rw [hk])
        congr 1
        by_cases hlt : k < done.length
        · rw [List.getElem?_append_left hlt]
        · rw [List.getElem?_eq_none (not_lt.1 hlt), List.getElem?_eq_none]
          rw [List.length_append, List.length_singleton]
          omega
    · rw [if_neg h2, if_neg h2, if_neg (by omega)]

/-- The pieces that are read from a file. -/
theorem wp_reads (h : Whole F n s) (hf : F i = some f) (reads : List (List UInt8))
    (hmax : f.data.length + reads.flatten.length ≤ maxfile * bsize)
    (hroom : s.freeblock + need (f.data.length + reads.flatten.length) ≤
      fssize + need f.data.length) :
    wp (reads.forM (iappend i)) (fun _ t =>
      Whole (Function.update F i (some ⟨f.type, f.data ++ reads.flatten⟩)) n t ∧
      t.freeblock + need f.data.length ≤
        s.freeblock + need (f.data.length + reads.flatten.length)) E s := by
  induction reads generalizing F f s with
  | nil =>
    have hsame : Function.update F i (some ⟨f.type, f.data ++ [].flatten⟩) = F :=
      Function.update_eq_self_iff.2 (by rw [hf, List.flatten_nil, List.append_nil])
    rw [hsame]
    exact ⟨h, le_rfl⟩
  | cons p reads ih =>
    rw [List.flatten_cons, List.length_append, ← Nat.add_assoc] at hmax hroom
    have hmono : need (f.data.length + p.length) ≤
        need (f.data.length + p.length + reads.flatten.length) := need_mono (Nat.le_add_right _ _)
    rw [List.forM_eq_forM, List.forM_cons, wp_bind]
    refine (wp_iappend h hf (by omega) (by omega)).mono (fun _ t ht => ?_) fun _ _ he => he
    obtain ⟨hw, hfree⟩ := ht
    have hlen : (f.data ++ p).length = f.data.length + p.length := List.length_append
    have hrec := @ih _ _ ⟨f.type, f.data ++ p⟩ hw (Function.update_self i _ F) (by rwa [hlen])
      (by rw [hlen]; omega)
    dsimp only at hrec
    rw [Function.update_idem, hlen, List.append_assoc, ← List.flatten_cons] at hrec
    refine hrec.mono (fun _ u hu => ⟨hu.1, ?_⟩) fun _ _ he => he
    rw [List.flatten_cons, List.length_append, ← Nat.add_assoc]
    have := hu.2
    omega

/-- A file is added. -/
theorem wp_addFile (hfit : Fits args) (h : Whole (filesOf done) (done.length + 2) s) (ha : a ∈ args)
    (hdone : done.length < args.length)
    (hroom : s.freeblock + need (16 * (done.length + 3)) + need a.data.length ≤
      fssize + need (16 * (done.length + 2))) :
    wp (addFile a) (fun _ t => Whole (filesOf (done ++ [a])) (done.length + 3) t ∧
      t.freeblock + need (16 * (done.length + 2)) ≤
        s.freeblock + need (16 * (done.length + 3)) + need a.data.length) E s := by
  have hcount := hfit.count
  rw [addFile, wp_bind]
  refine wp_assert (hfit.shortname a ha) ?_
  rw [wp_bind]
  refine wp_assert (hfit.name a ha) ?_
  rw [wp_bind]
  refine (wp_ialloc h (by omega) (filesOf_next done) (by decide)).mono (fun inum t ht => ?_)
    fun _ _ he => he
  obtain ⟨rfl, hw, hfree⟩ := ht
  have hne : done.length + 2 ≠ rootIno := add_two_ne_root _
  have hroot : Function.update (filesOf done) (done.length + 2) (some ⟨tFile, []⟩) rootIno =
      some ⟨tDir, rootData done⟩ := by rw [Function.update_of_ne hne.symm, filesOf_root]
  have hlen : 16 * (done.length + 2) + 16 = 16 * (done.length + 3) := by omega
  have hmono : need (16 * (done.length + 2)) ≤ need (16 * (done.length + 3)) :=
    need_mono (by omega)
  rw [wp_bind]
  refine (wp_iappend hw hroot ?_ ?_).mono (fun _ u hu => ?_) fun _ _ he => he
  · dsimp only
    rw [length_rootData, length_dirent, hlen]
    have : 16 * ninodes ≤ maxfile * bsize := by decide
    omega
  · dsimp only
    rw [length_rootData, length_dirent, hlen]
    omega
  obtain ⟨hu, hufree⟩ := hu
  dsimp only at hu hufree
  rw [length_rootData, length_dirent, hlen] at hufree
  have hfile : Function.update (Function.update (filesOf done) (done.length + 2) (some ⟨tFile, []⟩))
      rootIno (some ⟨tDir, rootData done ++ dirent (done.length + 2) a.name⟩) (done.length + 2) =
      some ⟨tFile, []⟩ := by
    rw [Function.update_of_ne hne, Function.update_self]
  have hzero : need 0 = 0 := by decide
  have hdata : ([] : List UInt8).length + a.reads.flatten.length = a.data.length := Nat.zero_add _
  refine (wp_reads hu hfile a.reads ?_ ?_).mono (fun _ v hv => ?_) fun _ _ he => he
  · dsimp only
    rw [hdata]
    exact hfit.size a ha
  · dsimp only
    rw [hdata, List.length_nil, hzero]
    omega
  obtain ⟨hv, hvfree⟩ := hv
  dsimp only at hv hvfree
  rw [hdata, List.length_nil, hzero] at hvfree
  refine ⟨?_, by omega⟩
  rw [filesOf_append]
  rwa [Function.update_comm hne, Function.update_idem, List.nil_append] at hv

/-- The root directory before the first file. -/
theorem wp_root (h : Whole (Function.update (fun _ => none) rootIno (some ⟨tDir, []⟩)) 2 s)
    (hfree : s.freeblock = nmeta) :
    wp (iappend rootIno (dirent rootIno [46]) >>= fun _ =>
        iappend rootIno (dirent rootIno [46, 46]))
      (fun _ t => Whole (filesOf []) 2 t ∧ t.freeblock ≤ nmeta + need 32) E s := by
  have hn : need 0 = 0 ∧ need 16 = 1 ∧ need 32 = 1 ∧ nmeta + 1 ≤ fssize := by decide
  rw [wp_bind]
  refine (wp_iappend h (Function.update_self _ _ _) (by decide) ?_).mono (fun _ t ht => ?_)
    fun _ _ he => he
  · change s.freeblock + need 16 ≤ fssize + need 0
    omega
  obtain ⟨ht, htfree⟩ := ht
  change t.freeblock + need 0 ≤ s.freeblock + need 16 at htfree
  refine (wp_iappend ht (Function.update_self _ _ _) (by decide) ?_).mono (fun _ u hu => ?_)
    fun _ _ he => he
  · change t.freeblock + need 32 ≤ fssize + need 16
    omega
  obtain ⟨hu, hufree⟩ := hu
  change u.freeblock + need 16 ≤ t.freeblock + need 32 at hufree
  refine ⟨?_, by omega⟩
  rw [Function.update_idem, Function.update_idem] at hu
  have hfiles : filesOf [] =
      Function.update (fun _ => none) rootIno (some ⟨tDir, rootData []⟩) := by
    funext i
    rw [Function.update_apply, filesOf]
    split
    next => rfl
    next =>
      split
      next => rfl
      next => rfl
  rw [hfiles]
  exact hu

/-- All the files. -/
theorem wp_files (hfit : Fits args) (h : Whole (filesOf []) 2 s)
    (hfree : s.freeblock ≤ nmeta + need 32) :
    wp (args.forM addFile) (fun _ t => Whole (filesOf args) (args.length + 2) t) E s := by
  refine (wp_forM (fun rest t => ∃ done, done ++ rest = args ∧
    Whole (filesOf done) (done.length + 2) t ∧ t.freeblock ≤ nmeta + need (16 * (done.length + 2)) +
      (done.map fun a => need a.data.length).sum) ⟨[], rfl, h, hfree⟩
    fun a rest t _ ht => ?_).mono (fun _ t ht => ?_) fun _ _ he => he
  · obtain ⟨done, hargs, hw, hle⟩ := ht
    have hlen : done.length + (rest.length + 1) = args.length := by
      rw [← hargs, List.length_append, List.length_cons]
    have hsum : (done.map fun a => need a.data.length).sum + (need a.data.length +
        (rest.map fun a => need a.data.length).sum) =
          (args.map fun a => need a.data.length).sum := by
      rw [← hargs, List.map_append, List.sum_append, List.map_cons, List.sum_cons]
    have hblocks := hfit.blocks
    have hmono : need (16 * (done.length + 3)) ≤ need (16 * (args.length + 2)) :=
      need_mono (by omega)
    refine (wp_addFile hfit hw ?_ (by omega) (by omega)).mono (fun _ u hu => ?_) fun _ _ he => he
    · rw [← hargs]
      exact List.mem_append_right done List.mem_cons_self
    · refine ⟨done ++ [a], by rw [List.append_assoc, List.singleton_append, hargs], ?_, ?_⟩
      · rw [List.length_append]
        exact hu.1
      · rw [List.length_append, List.map_append, List.sum_append, List.map_singleton,
          List.sum_singleton, List.length_singleton]
        have := hu.2
        have : done.length + 1 + 2 = done.length + 3 := rfl
        rw [this]
        omega
  · obtain ⟨done, hargs, hw, -⟩ := ht
    rw [List.append_nil] at hargs
    rwa [hargs] at hw

end Mkfs

end Xv6
