import CLangProject.MemDevWired

/-!
# The checked allocator keeps its invariant

`Sound s ring tab`: the free list of `s` is the circle `freelist → ring →
freelist`, the hash table holds exactly the descriptors `tab`, and the
extents of all descriptors are separate. A descriptor off the ring has a
NULL `free` link, so that `Memory_free` can tell a live block from a freed
one by that link alone.

Every operation is a composition of five moves, each with one lemma: the
heap changes (`Sound.heap`), a descriptor on the ring loses its back
(`Sound.cut`), a new descriptor takes free space (`Sound.fresh`), and it
enters the hash table (`Sound.enter`) or the ring (`Sound.release`). That a
base address is never handed out twice needs no history: a descriptor is
never removed and never becomes empty, so its address stays taken.
-/

namespace CLangProject

open List

namespace MemoryDev

/-! ## The invariant -/

structure Sound (s : Mem) (ring tab : List Nat) : Prop where
  avail_pos : 0 < s.avail
  sentinel : (s.desc 0).size = 0
  ring_path : Path s.freeOf (s.freeOf 0) ring (some 0)
  ring_nodup : ring.Nodup
  ring_used : ∀ i ∈ ring, s.Used i
  off_ring : ∀ i, s.Used i → i ∉ ring → s.freeOf i = none
  bucket : ∀ h, ∃ l, Path s.linkOf (s.htab h) l none ∧ l.Nodup
    ∧ ∀ i, i ∈ l ↔ i ∈ tab ∧ hash (s.desc i).ptr = h
  tab_used : ∀ i ∈ tab, s.Used i
  separate : Separate s.heap.held s.Used s.extent
  aligned : ∀ i, s.Used i → alignSize ∣ (s.desc i).ptr ∧ alignSize ∣ (s.desc i).size
  ptr_pos : ∀ i, s.Used i → 0 < (s.desc i).ptr

theorem Sound.init : Sound Mem.init [] [] where
  avail_pos := Nat.one_pos
  sentinel := rfl
  ring_path := rfl
  ring_nodup := nodup_nil
  ring_used := by simp
  off_ring := by rintro i ⟨h1, h2⟩; simp only [Mem.init] at h2; omega
  bucket h := ⟨[], rfl, nodup_nil, by simp⟩
  tab_used := by simp
  separate := by
    refine ⟨?_, ?_, ?_⟩ <;> (rintro i; intros; simp only [Mem.Used, Mem.init] at *; omega)
  aligned := by rintro i ⟨h1, h2⟩; simp only [Mem.init] at h2; omega
  ptr_pos := by rintro i ⟨h1, h2⟩; simp only [Mem.init] at h2; omega

section
variable {s : Mem} {ring tab : List Nat}

theorem Sound.wired (h : Sound s ring tab) : Wired s ring where
  avail_pos := h.avail_pos
  sentinel := h.sentinel
  path := h.ring_path
  nodup := h.ring_nodup
  used := h.ring_used
  bucket b := by
    obtain ⟨l, hl, hnd, hmem⟩ := h.bucket b
    exact ⟨l, hl, hnd, fun i hi => h.tab_used i ((hmem i).mp hi).1⟩
  inside := h.separate.inside

/-- What is left to show when the lists are known to be wired. -/
theorem Wired.sound (h : Wired s ring) (off_ring : ∀ i, s.Used i → i ∉ ring → s.freeOf i = none)
    (bucket : ∀ b, ∃ l, Path s.linkOf (s.htab b) l none ∧ l.Nodup ∧ ∀ i, i ∈ l ↔ i ∈ tab ∧
      hash (s.desc i).ptr = b)
    (tab_used : ∀ i ∈ tab, s.Used i) (separate : Separate s.heap.held s.Used s.extent)
    (aligned : ∀ i, s.Used i → alignSize ∣ (s.desc i).ptr ∧ alignSize ∣ (s.desc i).size)
    (ptr_pos : ∀ i, s.Used i → 0 < (s.desc i).ptr) : Sound s ring tab :=
  ⟨h.avail_pos, h.sentinel, h.path, h.nodup, h.used, off_ring, bucket, tab_used, separate,
  aligned, ptr_pos⟩

variable {i n k : Nat} {s0 : Mem}

section

variable (h : Sound s ring tab)
include h

/-- On the ring means freed or a chunk: the `free` link is not NULL. -/
theorem Sound.free_ne_none (hi : i ∈ ring) : s.freeOf i ≠ none := h.wired.free_ne_none hi

theorem Sound.free_eq_none_iff (hi : s.Used i) : s.freeOf i = none ↔ i ∉ ring :=
  ⟨fun hf hmem => h.free_ne_none hmem hf, h.off_ring i hi⟩

theorem Sound.heap {H : CHeap} (k : Nat)
    (hheld : s.heap.held ⊆ H.held) : Sound { s with heap := H, nleft := k } ring tab where
  __ := h
  separate := by
    refine ⟨h.separate.pos, fun i hi => ?_, h.separate.apart⟩
    obtain ⟨r, hr, hin⟩ := h.separate.inside i hi
    exact ⟨r, hheld hr, hin⟩

theorem Sound.cut (hi : s.Used i) (hn : alignSize ∣ n)
    (hlt : n < (s.desc i).size) : Sound (s.setSize i ((s.desc i).size - n)) ring tab := by
  have hptr : ∀ j, ((s.setSize i ((s.desc i).size - n)).desc j).ptr = (s.desc j).ptr := fun j =>
    s.modify_read i j fun _ => rfl
  refine (h.wired.cut hi n).sound ?_ ?_ h.tab_used ?_ (fun j hj => ?_) fun j hj => ?_
  · rw [Mem.setSize_freeOf]
    exact h.off_ring
  · simp only [Mem.setSize_linkOf, hptr]
    exact h.bucket
  · refine h.separate.cut (i := i) (n := n) hlt ?_ fun j hj => ?_
    · simp [Mem.extent, Mem.setSize_desc, Extent.front]
    · simp [Mem.extent, Mem.setSize_desc, hj]
  · rw [Mem.setSize_desc]
    split_ifs with hji
    · exact ⟨(h.aligned j hj).1, Nat.dvd_sub (h.aligned i hi).2 hn⟩
    · exact h.aligned j hj
  · rw [hptr]
    exact h.ptr_pos j hj

theorem Sound.fresh (ptr size : Nat) (loc : Coord) (hptr : 0 < ptr)
    (hsize : 0 < size) (halign : alignSize ∣ ptr ∧ alignSize ∣ size)
    (hin : ∃ r ∈ s.heap.held, (Extent.mk ptr size).Within r)
    (hap : ∀ i, s.Used i → (s.extent i).Apart ⟨ptr, size⟩) :
    Sound (addDesc ptr size loc s) ring tab := by
  have hold : ∀ i, s.Used i → (addDesc ptr size loc s).desc i = s.desc i :=
    fun i hi => addDesc_desc_of_ne (Nat.ne_of_lt hi.2)
  have hself := addDesc_desc_self ptr size loc s
  have hused := addDesc_used ptr size loc h.avail_pos
  refine (h.wired.fresh ptr size loc hin).sound (fun i hi hr => ?_) (fun b => ?_)
    (fun i hi => (hused i).mpr (Or.inl (h.tab_used i hi))) ?_ (fun i hi => ?_) fun i hi => ?_
  · rw [Mem.freeOf]
    rcases (hused i).mp hi with hi | rfl
    · rw [hold i hi]; exact h.off_ring i hi hr
    · rw [hself]
  · obtain ⟨l, hl, hnd, hmem⟩ := h.bucket b
    refine ⟨l, hl.congr fun i hi => ?_, hnd, fun i => ?_⟩
    · rw [Mem.linkOf, hold i (h.tab_used i ((hmem i).mp hi).1)]
      rfl
    · rw [hmem]
      refine and_congr_right fun hi => ?_
      rw [hold i (h.tab_used i hi)]
  · refine h.separate.insert (List.Subset.refl _) hused (fun i hi => ?_) ?_ ?_ fun i hi => ?_
    · simp only [Mem.extent, hold i hi]
    · simpa only [Mem.extent, hself] using hsize
    · simp only [Mem.extent, hself]
      exact hin
    · simpa only [Mem.extent, hself] using hap i hi
  · rcases (hused i).mp hi with hi | rfl
    · rw [hold i hi]; exact h.aligned i hi
    · rw [hself]; exact halign
  · rcases (hused i).mp hi with hi | rfl
    · rw [hold i hi]; exact h.ptr_pos i hi
    · rw [hself]; exact hptr

/-- A used descriptor outside the table is chained into its bucket. -/
theorem Sound.enter (hk : s.Used k) (htab : k ∉ tab) :
    Sound (enter (s.desc k).ptr k s) ring (k :: tab) := by
  have hfree := enter_freeOf s (s.desc k).ptr k
  have hext := enter_extent s (s.desc k).ptr k
  have hptr : ∀ j, ((MemoryDev.enter (s.desc k).ptr k s).desc j).ptr = (s.desc j).ptr :=
    fun j => congrArg Extent.base (congrFun hext j)
  have hsize : ∀ j, ((MemoryDev.enter (s.desc k).ptr k s).desc j).size = (s.desc j).size :=
    fun j => congrArg Extent.size (congrFun hext j)
  exact {
    avail_pos := h.avail_pos
    sentinel := by rw [hsize]; exact h.sentinel
    ring_path := by rw [hfree]; exact h.ring_path
    ring_nodup := h.ring_nodup
    ring_used := h.ring_used
    off_ring := by rw [hfree]; exact h.off_ring
    bucket := by
      intro b
      obtain ⟨l, hl, hnd, hmem⟩ := h.bucket b
      have hkl : k ∉ l := fun hkl => htab ((hmem k).mp hkl).1
      have hlink : ∀ i ∈ l, (MemoryDev.enter (s.desc k).ptr k s).linkOf i = s.linkOf i := by
        intro i hi
        rw [Mem.linkOf, enter_desc, if_neg (ne_of_mem_of_not_mem hi hkl)]
        rfl
      rw [enter_htab]
      simp only [hptr, mem_cons]
      by_cases hb : b = hash (s.desc k).ptr
      · subst hb
        rw [if_pos rfl]
        refine ⟨k :: l, ⟨rfl, ?_⟩, nodup_cons.mpr ⟨hkl, hnd⟩, fun i => ?_⟩
        · rw [Mem.linkOf, enter_desc, if_pos rfl]
          exact hl.congr hlink
        · rw [mem_cons, hmem]
          by_cases hi : i = k
          · subst hi; simp
          · simp [hi]
      · rw [if_neg hb]
        refine ⟨l, hl.congr hlink, hnd, fun i => ?_⟩
        rw [hmem]
        by_cases hi : i = k
        · subst hi; simp [Ne.symm hb]
        · simp [hi]
    tab_used := forall_mem_cons.mpr ⟨hk, h.tab_used⟩
    separate := by rw [hext]; exact h.separate
    aligned := fun i hi => by rw [hptr, hsize]; exact h.aligned i hi
    ptr_pos := fun i hi => by rw [hptr]; exact h.ptr_pos i hi }

/-- A used descriptor off the ring is linked in behind `freelist`. -/
theorem Sound.release (hk : s.Used k) (hring : k ∉ ring) : Sound (release k s) (k :: ring) tab := by
  have hext := release_extent s k
  have hptr : ∀ j, ((MemoryDev.release k s).desc j).ptr = (s.desc j).ptr :=
    fun j => congrArg Extent.base (congrFun hext j)
  have hsize : ∀ j, ((MemoryDev.release k s).desc j).size = (s.desc j).size :=
    fun j => congrArg Extent.size (congrFun hext j)
  refine (h.wired.release hk hring).sound (fun i hi hr => ?_) ?_ h.tab_used
    (by rw [hext]; exact h.separate)
    (fun i hi => by rw [hptr, hsize]; exact h.aligned i hi) fun i hi => by
      rw [hptr]; exact h.ptr_pos i hi
  · rw [mem_cons, not_or] at hr
    rw [Mem.freeOf, release_desc s (Nat.ne_of_gt hk.1), if_neg (Nat.ne_of_gt hi.1), if_neg hr.1]
    exact h.off_ring i hi hr.2
  · simp only [release_linkOf, hptr]
    exact h.bucket

theorem Sound.bytes (b : Nat → UInt8) : Sound { s with bytes := b } ring tab where
  __ := h

end

/-! ## `Memory_alloc` -/

/-- What a request for `n` rounded bytes may do to a sound state: hand out
the block of a new table entry, or fail and leave the table alone. -/
def AllocSpec (s : Mem) (tab : List Nat) (n : Nat) (r : Outcome Exc Nat × Mem) : Prop :=
  Kept s r.2 ∧ ∃ ring', match r.1 with
    | .ok p => ∃ k, s.avail ≤ k ∧ Sound r.2 ring' (k :: tab) ∧ r.2.freeOf k = none
        ∧ (r.2.desc k).ptr = p ∧ (r.2.desc k).size = n
    | .raise e _ => e = .memoryFailed ∧ Sound r.2 ring' tab
    | .stuck => False

theorem AllocSpec.of_kept {r : Outcome Exc Nat × Mem} (hkept : Kept s0 s)
    (h : AllocSpec s tab n r) :
    AllocSpec s0 tab n r := by
  obtain ⟨hk, ring', h⟩ := h
  refine ⟨hkept.trans hk, ring', ?_⟩
  match r, h with
  | (.ok p, _), ⟨k, hle, h⟩ => exact ⟨k, Nat.le_trans hkept.avail hle, h⟩
  | (.raise _ _, _), h => exact h

/-- A block of free space is handed out under a new descriptor. -/
theorem AllocSpec.of_fresh {ptr : Nat} (loc : Coord) (hkept : Kept s0 s) (h : Sound s ring tab)
    (hptr : 0 < ptr) (hn : 0 < n) (halign : alignSize ∣ ptr ∧ alignSize ∣ n)
    (hin : ∃ r ∈ s.heap.held, (Extent.mk ptr n).Within r)
    (hap : ∀ i, s.Used i → (s.extent i).Apart ⟨ptr, n⟩) :
    AllocSpec s0 tab n (.ok ptr, enter ptr s.avail (addDesc ptr n loc s)) := by
  have hself := addDesc_desc_self ptr n loc s
  have hent := (h.fresh ptr n loc hptr hn halign hin hap).enter (k := s.avail)
    ⟨h.avail_pos, Nat.lt_succ_self _⟩ (fun hmem => Nat.lt_irrefl _ (h.tab_used _ hmem).2)
  rw [hself] at hent
  refine ⟨?_, ring, s.avail, hkept.avail, hent, ?_, ?_, ?_⟩
  · exact (hkept.trans (Kept.addDesc _ _ _ _)).trans (Kept.enter _ _ _)
  all_goals
    simp only [Mem.freeOf, enter_desc, if_pos]
    rw [hself]

/-- The loop stands on a descriptor of the ring with more space than
needed. -/
theorem Sound.allocLoop_cut (h : Sound s ring tab) (M : Malloc) (loc : Coord) (hn : 0 < n)
    (hal : alignSize ∣ n) (hi : i ∈ ring) (hlt : n < (s.desc i).size) (fuel : Nat) :
    AllocSpec s tab n (allocLoop M n loc (fuel + 1) (some i) s) := by
  have hu := h.ring_used i hi
  have hcut := h.cut hu hal hlt
  have hkcut : Kept s (s.setSize i ((s.desc i).size - n)) := Kept.cut (h.free_ne_none hi) _
  rcases MemoryDev.allocLoop_cut M n loc hlt rfl with ⟨-, H, nleft, hsub, hr⟩ | ⟨-, l, H, hheld,
    hr⟩ <;> rw [hr]
  · -- the back of `i` becomes the block of the new descriptor
    have hback : (s.extent i).back n = ⟨(s.desc i).ptr + ((s.desc i).size - n), n⟩ := rfl
    obtain ⟨r, hr, hin⟩ := h.separate.inside i hu
    refine AllocSpec.of_fresh loc (hkcut.heap H nleft) (hcut.heap nleft hsub)
      (Nat.lt_of_lt_of_le (h.ptr_pos i hu) (Nat.le_add_right _ _)) hn
      ⟨Nat.dvd_add (h.aligned i hu).1 (Nat.dvd_sub (h.aligned i hu).2 hal), hal⟩ ?_ ?_
    · exact ⟨r, hsub hr, hback ▸ (Extent.back_within (Nat.le_of_lt hlt)).trans hin⟩
    · intro j hj
      rw [← hback]
      refine h.separate.apart_back hu hlt ?_ (fun j hj => ?_) hj
      · simp [Mem.extent, Mem.setSize_desc, Extent.front]
      · simp [Mem.extent, Mem.setSize_desc, hj]
  · exact ⟨hkcut.heap H s.nleft, ring, rfl, hcut.heap s.nleft (hheld ▸ List.Subset.refl _)⟩

theorem sizeT_of_lt (h : n < 2 ^ 64) : sizeT n = n := Nat.mod_eq_of_lt h

/-- The loop is back at `freelist`: a new chunk is linked in, and the
request is cut off its back. -/
theorem Sound.allocLoop_chunk (h : Sound s ring tab) (M : Malloc) (loc : Coord) (hn : 0 < n)
    (hal : alignSize ∣ n) (hsmall : n + nalloc < 2 ^ 64) (fuel : Nat) :
    AllocSpec s tab n (allocLoop M n loc (fuel + 2) (some 0) s) := by
  have hnal : 0 < nalloc := by decide
  have hcases := MemoryDev.allocLoop_chunk M n loc h.sentinel
  rw [sizeT_of_lt hsmall] at hcases
  rcases hcases with ⟨-, l, H, hheld, hr⟩ | ⟨-, a, H, nleft, ⟨hpos, h16, hap⟩, hsub, -, -,
    hr⟩ <;> rw [hr]
  · exact ⟨(Kept.refl s).heap H s.nleft, ring, rfl, h.heap s.nleft (hheld ▸ List.Subset.refl _)⟩
  · have hfresh := (h.heap nleft (subset_of_cons_subset hsub)).fresh a (n + nalloc) (here 139)
      hpos (by omega) ⟨h16, Nat.dvd_add hal (by decide)⟩ ⟨_, hsub mem_cons_self,
      Extent.Within.refl _⟩ fun i hi => by
        obtain ⟨r, hr, hin⟩ := h.separate.inside i hi
        exact (hap r hr).symm.mono hin (Extent.Within.refl _)
    have havail : s.avail ≠ 0 := Nat.ne_of_gt h.avail_pos
    have hring : s.avail ∉ ring := fun hmem => Nat.lt_irrefl _ (h.ring_used _ hmem).2
    have hrel := hfresh.release (k := s.avail) ⟨h.avail_pos, Nat.lt_succ_self _⟩ hring
    refine AllocSpec.of_kept ?_ (hrel.allocLoop_cut M loc hn hal mem_cons_self ?_ fuel)
    · exact Kept.release (((Kept.refl s).heap H nleft).trans (Kept.addDesc _ _ _ _))
        (Nat.le_refl _) havail
    · rw [release_desc _ havail, if_neg havail, if_pos rfl]
      simp only [addDesc, Function.update_self]
      omega

theorem allocLoop_spec (M : Malloc) (loc : Coord) (hn : 0 < n) (hal : alignSize ∣ n)
    (hsmall : n + nalloc < 2 ^ 64) (h : Sound s ring tab) {fuel : Nat}
    (hfuel : ring.length + 2 ≤ fuel) :
    AllocSpec s tab n (allocLoop M n loc fuel (s.freeOf 0) s) := by
  obtain ⟨fuel, rfl⟩ := Nat.exists_eq_add_of_le' hfuel
  rcases h.wired.first_fit M n loc with ⟨i, hi, hlt, k, hk, hwalk⟩ | ⟨-, k, hk, hwalk⟩
  · rw [show fuel + (ring.length + 2) = fuel + ring.length - k + 1 + 1 + k by omega, hwalk]
    exact h.allocLoop_cut M loc hn hal hi hlt _
  · rw [show fuel + (ring.length + 2) = fuel + ring.length - k + 2 + k by omega, hwalk]
    exact h.allocLoop_chunk M loc hn hal hsmall _

end

end MemoryDev

end CLangProject
