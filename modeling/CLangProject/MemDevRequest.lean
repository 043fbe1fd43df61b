import CLangProject.Cells
import CLangProject.MemDevRun

/-!
# Requests of any size to the checked allocator

`Memory_alloc` rounds the request up and adds `NALLOC` modulo `2 ^ 64`, and
`Memory_calloc` multiplies modulo `2 ^ 64`. Here nothing is assumed about the
sizes. A request of `n` bytes, rounded, ends in one of four ways
(`Wired.request`): a block is cut off the first descriptor with more space, or
there is no descriptor for the block and the space is lost; or no descriptor
has the space, and a new chunk is refused, or linked into the free list before
the loop starts again.

The block handed out has the rounded size, which is less than the request when
the request wraps (`not_short_iff`). A request that fails leaves the free list
as it was only when nothing was cut and no chunk was linked
(`failed_unchanged_iff`).
-/

namespace CLangProject

open List Option Function

namespace MemoryDev

/-- With enough steps the call has the result `r`. -/
abbrev Settles {α : Type} (f : Nat → α) (r : α) : Prop := Ends (fun fuel => some (f fuel)) r

variable {k i n p : Nat} {H : CHeap} {l : Coord} {r : Outcome Exc Nat × Mem} {s' : Mem}

theorem Settles.steps {α : Type} {f g : Nat → α} {r : α} (h : Settles f r)
    (hg : ∀ fuel, g (fuel + k) = f fuel) : Settles g r :=
  Ends.steps h fun fuel => congrArg some (hg fuel)

theorem settles_of_succ {α : Type} {f : Nat → α} {r : α} (h : ∀ fuel, f (fuel + 1) = r) :
    Settles f r :=
  .of_succ fun fuel => congrArg some (h fuel)

variable {s : Mem} {ring : List Nat}

/-- The call has ended, and the hash table and the free list are wired. -/
def Intact {α : Type} (r : Outcome Exc α × Mem) : Prop := r.1 ≠ .stuck ∧ ∃ ring, Wired r.2 ring

/-! ## How a request ends -/

/-- What a request for `n` rounded bytes has done in the end. -/
structure Requested (s : Mem) (ring : List Nat) (n : Nat) (r : Outcome Exc Nat × Mem) : Prop where
  kept : Kept s r.2
  bytes : r.2.bytes = s.bytes
  wired : ∃ ring', Wired r.2 ring' ∧ ring ⊆ ring'
  ended : r.1 ≠ .stuck
  ok : ∀ p, r.1 = .ok p → r.2.block p = some ⟨p, n⟩ ∧ ∃ q ∈ r.2.heap.held, (Extent.mk p n).Within q
  raised : ∀ e l, r.1 = .raise e l →
    e = .memoryFailed ∧ r.2.htab = s.htab ∧ ∀ i, s.Used i → r.2.linkOf i = s.linkOf i

theorem block_enter (s : Mem) (ptr n : Nat) (loc : Coord) :
    (enter ptr s.avail (addDesc ptr n loc s)).block ptr = some ⟨ptr, n⟩ := by
  have hdesc : (enter ptr s.avail (addDesc ptr n loc s)).desc s.avail
      = ⟨none, s.htab (hash ptr), ptr, n, loc.file, loc.line⟩ := by
    rw [enter_desc, if_pos rfl, addDesc_desc_self]
    rfl
  have hfind : find (enter ptr s.avail (addDesc ptr n loc s)) ptr = some (some s.avail) := by
    rw [find, enter_htab, if_pos rfl, findLoop, hdesc]
    simp
  rw [Mem.block, hfind]
  simp only [Mem.extent, hdesc]

section

variable (h : Wired s ring)
include h

/-- The request is cut off the descriptor `i`. -/
theorem Wired.cut_cases (M : Malloc) (loc : Coord) (hi : i ∈ ring) (hlt : n < (s.desc i).size) :
    (¬ PoolRefused M s ∧ ∃ r, (∀ fuel, allocLoop M n loc (fuel + 1) (some i) s = r) ∧
        (∃ p, r.1 = .ok p) ∧
      Requested s ring n r) ∨
    (PoolRefused M s ∧ ∃ l H, H.held = s.heap.held ∧ ∀ fuel, allocLoop M n loc (fuel + 1) (some i) s
      = (.raise .memoryFailed l, { s.setSize i ((s.desc i).size - n) with heap := H })) := by
  have hu := h.used i hi
  refine (allocLoop_cut M n loc hlt rfl).imp_left fun ⟨hpool, H, nleft, hsub, hr⟩ =>
    ⟨hpool, _, hr, ⟨_, rfl⟩, ?_⟩
  obtain ⟨q, hq, hin⟩ := h.inside i hu
  have hback : Extent.Within ⟨(s.desc i).ptr + ((s.desc i).size - n), n⟩ q :=
    (Extent.back_within (Nat.le_of_lt hlt)).trans hin
  exact {
    kept := (((Kept.cut (h.free_ne_none hi) _).heap H nleft).trans (Kept.addDesc _ _ _ _)).trans
      (Kept.enter _ _ _)
    bytes := rfl
    wired := ⟨ring, ((h.cut hu n).heap nleft hsub).grant _ n loc ⟨q, hsub hq, hback⟩,
    List.Subset.refl _⟩
    ended := by simp
    ok := fun p hp => by
      obtain rfl : _ = p := by simpa using hp
      exact ⟨block_enter { s.setSize i ((s.desc i).size - n) with heap := H, nleft := nleft } _ n
        loc, q, hsub hq, hback⟩
    raised := by simp }

/-- No descriptor has the space. -/
theorem Wired.chunk_cases (M : Malloc) (n : Nat) (loc : Coord) :
    (ChunkRefused M n s ∧ ∃ l H, H.held = s.heap.held ∧
      ∀ fuel, allocLoop M n loc (fuel + 1) (some 0) s = (.raise .memoryFailed l,
      { s with heap := H })) ∨
    (¬ ChunkRefused M n s ∧ ∃ s1, Wired s1 (s.avail :: ring) ∧ Kept s s1 ∧ s1.bytes = s.bytes ∧
      s1.htab = s.htab ∧ (∀ i, s.Used i → s1.linkOf i = s.linkOf i) ∧ s1.reserve < s.reserve ∧
      (s1.desc s.avail).size = sizeT (n + nalloc) ∧
      (∀ i ∈ ring, (s1.desc i).size = (s.desc i).size) ∧ (PoolRefused M s1 ↔ CutRefused M n s) ∧
      ∀ fuel, allocLoop M n loc (fuel + 1) (some 0) s = allocLoop M n loc fuel
        (s1.freeOf 0) s1) := by
  refine (allocLoop_chunk M n loc h.sentinel).imp_right
    fun ⟨hgranted, a, H, nleft, _, hsub, hres, hpool, hr⟩ => ⟨hgranted, ?_⟩
  have havail : s.avail ≠ 0 := Nat.ne_of_gt h.avail_pos
  have hring : s.avail ∉ ring := fun hmem => Nat.lt_irrefl _ (h.used _ hmem).2
  have hfresh := (h.heap nleft (subset_of_cons_subset hsub)).fresh a (sizeT (n + nalloc)) (here 139)
    ⟨_, hsub mem_cons_self, Extent.Within.refl _⟩
  have hrel := hfresh.release (k := s.avail) ⟨h.avail_pos, Nat.lt_succ_self _⟩ hring
  refine ⟨_, hrel, ?_, rfl, rfl, fun i hi => ?_, hres, ?_, fun i hi => ?_, hpool, fun fuel => ?_⟩
  · exact Kept.release (((Kept.refl s).heap H nleft).trans (Kept.addDesc _ _ _ _))
      (Nat.le_refl _) havail
  · rw [release_linkOf]
    exact congrArg Descriptor.link (addDesc_desc_of_ne (Nat.ne_of_lt hi.2))
  · rw [release_desc _ havail, if_neg havail, if_pos rfl]
    simp only [addDesc, update_self]
  · have hne : i ≠ s.avail := ne_of_mem_of_not_mem hi hring
    rw [release_desc _ havail, if_neg (Nat.ne_of_gt (h.used i hi).1), if_neg hne]
    exact congrArg Descriptor.size (addDesc_desc_of_ne hne)
  · rw [hr fuel, ← hrel.path.1]

/-- The free list and all descriptors are as they were. -/
theorem Wired.requested_refused (hheld : H.held = s.heap.held) :
    Requested s ring n (.raise .memoryFailed l, { s with heap := H }) where
  kept := (Kept.refl s).heap H s.nleft
  bytes := rfl
  wired := ⟨ring, h.heap s.nleft (hheld ▸ List.Subset.refl _), List.Subset.refl _⟩
  ended := by simp
  ok := by simp
  raised e l' he := by
    cases he
    exact ⟨rfl, rfl, fun _ _ => rfl⟩

/-- The space cut off is lost. -/
theorem Wired.requested_lost (hi : i ∈ ring) (hheld : H.held = s.heap.held) :
    Requested s ring n (.raise .memoryFailed l,
    { s.setSize i ((s.desc i).size - n) with heap := H }) where
  kept := (Kept.cut (h.free_ne_none hi) _).heap H s.nleft
  bytes := rfl
  wired := ⟨ring, (h.cut (h.used i hi) n).heap s.nleft (hheld ▸ List.Subset.refl _),
  List.Subset.refl _⟩
  ended := by simp
  ok := by simp
  raised e l' he := by
    cases he
    exact ⟨rfl, rfl, fun j _ => congrFun (Mem.setSize_linkOf ..) j⟩

end

/-- The loop starts again after a chunk has been linked. -/
theorem Requested.after_chunk {s1 : Mem} (hkept : Kept s s1) (hbytes : s1.bytes = s.bytes)
    (htab : s1.htab = s.htab) (hlink : ∀ i, s.Used i → s1.linkOf i = s.linkOf i)
    (h : Requested s1 (s.avail :: ring) n r) : Requested s ring n r where
  kept := hkept.trans h.kept
  bytes := h.bytes.trans hbytes
  wired := by
    obtain ⟨ring', hw, hsub⟩ := h.wired
    exact ⟨ring', hw, subset_of_cons_subset hsub⟩
  ended := h.ended
  ok := h.ok
  raised e l he := by
    obtain ⟨he, ht, hli⟩ := h.raised e l he
    exact ⟨he, ht.trans htab, fun i hi => (hli i (hkept.used hi)).trans (hlink i hi)⟩

/-- No block of `n` rounded bytes can be handed out: the first descriptor with more space is found,
but none for the block; or a chunk is needed, and `malloc` returns NULL for it or for a pool of
descriptors, or the size of the chunk wraps, so that no chunk is ever large enough. -/
def BlockRefused (M : Malloc) (n : Nat) (ring : List Nat) (s : Mem) : Prop :=
  ((∃ i ∈ ring, n < (s.desc i).size) ∧ PoolRefused M s) ∨
    ((∀ i ∈ ring, (s.desc i).size ≤ n) ∧ (ChunkRefused M n s ∨ CutRefused M n s ∨
      2 ^ 64 ≤ n + nalloc))

theorem blockRefused_of_fit {M : Malloc} (hi : i ∈ ring) (hlt : n < (s.desc i).size) :
    BlockRefused M n ring s ↔ PoolRefused M s := by
  rw [BlockRefused, or_iff_left fun h => Nat.not_lt.2 (h.1 i hi) hlt]
  exact and_iff_right ⟨i, hi, hlt⟩

theorem blockRefused_of_small {M : Malloc} (hsmall : ∀ i ∈ ring, (s.desc i).size ≤ n) :
    BlockRefused M n ring s ↔ ChunkRefused M n s ∨ CutRefused M n s ∨ 2 ^ 64 ≤ n + nalloc := by
  rw [BlockRefused, or_iff_right fun ⟨⟨i, hi, hlt⟩, _⟩ => Nat.not_lt.2 (hsmall i hi) hlt]
  exact and_iff_right hsmall

/-- **Every request ends.** Chunk after chunk uses up the descriptors and the
address space, until one is large enough or `malloc` returns NULL. -/
theorem Wired.request (h : Wired s ring) (M : Malloc) (hn : n < 2 ^ 64) (loc : Coord) :
    ∃ r, Settles (fun fuel => allocLoop M n loc fuel (s.freeOf 0) s) r ∧ Requested s ring n r ∧
      (BlockRefused M n ring s ↔ ∀ p, r.1 ≠ .ok p) := by
  induction hres : s.reserve using Nat.strongRecOn generalizing s ring with
  | ind res ih =>
  rcases h.first_fit M n loc with ⟨i, hi, hlt, k, -, hwalk⟩ | ⟨hsmall, k, -, hwalk⟩
  · have hiff := blockRefused_of_fit (M := M) hi hlt
    rcases h.cut_cases M loc hi hlt with ⟨hpool, r, hr, ⟨p, hp⟩, hreq⟩ | ⟨hpool, l, H, hheld, hr⟩
    · exact ⟨r, (settles_of_succ hr).steps hwalk, hreq, iff_of_false (mt hiff.1 hpool) fun hno =>
        hno p hp⟩
    · exact ⟨_, (settles_of_succ hr).steps hwalk, h.requested_lost hi hheld,
        iff_of_true (hiff.2 hpool) (by simp)⟩
  · have hiff := blockRefused_of_small (M := M) hsmall
    rcases h.chunk_cases M n loc with
      ⟨hchunk, l, H, hheld, hr⟩ | ⟨hchunk, s1, h1, hkept, hbytes, htab, hlink, hlt, hnew,
      hold, hpool, hr⟩
    · exact ⟨_, (settles_of_succ hr).steps hwalk, h.requested_refused hheld,
        iff_of_true (hiff.2 (.inl hchunk)) (by simp)⟩
    · obtain ⟨r, hsettles, hreq, hback⟩ := ih _ (hres ▸ hlt) h1 rfl
      refine ⟨r, (hsettles.steps hr).steps hwalk, hreq.after_chunk hkept hbytes htab hlink, ?_⟩
      rw [← hback, hiff, or_iff_right hchunk]
      by_cases hwrap : n + nalloc < 2 ^ 64
      · -- the new chunk has the space
        have hfit : n < (s1.desc s.avail).size := by
          rw [hnew, sizeT_of_lt hwrap]
          exact Nat.lt_add_of_pos_right (by decide)
        rw [blockRefused_of_fit mem_cons_self hfit, hpool]
        exact or_iff_left (Nat.not_le.2 hwrap)
      · have hle : ∀ i ∈ s.avail :: ring, (s1.desc i).size ≤ n := by
          refine forall_mem_cons.2 ⟨?_, fun i hi => hold i hi ▸ hsmall i hi⟩
          have : nalloc < 2 ^ 64 := by decide
          rw [hnew, sizeT]
          omega
        rw [blockRefused_of_small hle]
        exact iff_of_true (.inr (Nat.not_lt.1 hwrap)) (.inr (.inr (Nat.not_lt.1 hwrap)))

theorem roundUp_lt (n : Nat) : roundUp n + 15 < 2 ^ 64 := by
  unfold roundUp sizeT alignSize
  omega

theorem Wired.alloc (h : Wired s ring) (M : Malloc) {nbytes : Nat} (hn : nbytes ≠ 0) (loc : Coord) :
    ∃ r, Settles (fun fuel => memoryAllocIn M fuel nbytes loc s) r ∧
      Requested s ring (roundUp nbytes) r ∧ (BlockRefused M (roundUp nbytes) ring s ↔
      ∀ p, r.1 ≠ .ok p) := by
  obtain ⟨r, hsettles, hreq⟩ := h.request M (Nat.lt_of_add_right_lt (roundUp_lt nbytes)) loc
  refine ⟨r, ?_, hreq⟩
  simp only [memoryAllocIn, if_neg hn]
  exact hsettles

/-! ## The hash table -/

theorem findLoop_congr {q : Option Nat} {l : List Nat} (hpath : Path s.linkOf q l none)
    (heq : ∀ i ∈ l, (s'.desc i).ptr = (s.desc i).ptr ∧ s'.linkOf i = s.linkOf i) {fuel fuel' : Nat}
    (hfuel : l.length < fuel) (hfuel' : l.length < fuel') :
    findLoop s' p fuel' q = findLoop s p fuel q := by
  obtain ⟨fuel, rfl⟩ := Nat.exists_eq_add_one_of_ne_zero (Nat.ne_zero_of_lt hfuel)
  obtain ⟨fuel', rfl⟩ := Nat.exists_eq_add_one_of_ne_zero (Nat.ne_zero_of_lt hfuel')
  induction l generalizing q fuel fuel' with
  | nil =>
    obtain rfl : q = none := hpath
    rfl
  | cons i l ih =>
    obtain ⟨rfl, hpath⟩ := hpath
    obtain ⟨⟨hptr, hlink⟩, heq⟩ := forall_mem_cons.1 heq
    simp only [length_cons, Nat.add_lt_add_iff_right] at hfuel hfuel'
    obtain ⟨fuel, rfl⟩ := Nat.exists_eq_add_one_of_ne_zero (Nat.ne_zero_of_lt hfuel)
    obtain ⟨fuel', rfl⟩ := Nat.exists_eq_add_one_of_ne_zero (Nat.ne_zero_of_lt hfuel')
    have hrest := ih hpath heq fuel hfuel fuel' hfuel'
    rw [findLoop, findLoop, hptr]
    rw [← hlink] at hrest
    rw [show (s.desc i).link = (s'.desc i).link from hlink.symm]
    exact if_congr Iff.rfl hrest rfl

section

variable (h : Wired s ring)
include h

/-- `__find` depends on the addresses and the links of the descriptors alone. -/
theorem Wired.find_eq (havail : s.avail ≤ s'.avail) (htab : s'.htab = s.htab)
    (heq : ∀ i, s.Used i → (s'.desc i).ptr = (s.desc i).ptr ∧ s'.linkOf i = s.linkOf i) (p : Nat) :
    find s' p = find s p := by
  obtain ⟨l, hpath, hnd, hused⟩ := h.bucket (hash p)
  have hlen := length_le_of_nodup hnd fun i hi => (hused i hi).2
  rw [find, find, htab]
  exact findLoop_congr hpath (fun i hi => heq i (hused i hi)) (by omega) (by omega)

theorem Wired.block_bytes (b : Nat → UInt8) (p : Nat) :
    Mem.block { s with bytes := b } p = s.block p := by
  let s' : Mem := { s with bytes := b }
  have hfind : find s' p = find s p := h.find_eq (show s.avail ≤ s'.avail from Nat.le_refl _)
    rfl (fun _ _ => ⟨rfl, rfl⟩) p
  rw [Mem.block, Mem.block, hfind]
  rfl

/-- The test of `Memory_resize` and `Memory_free` accepts only a used descriptor
that is off the free list. -/
theorem Wired.owner_cases (p : Nat) :
    (∃ i, s.Used i ∧ s.freeOf i = none ∧ find s p = some (some i) ∧ owner s p = some (some i)) ∨
      owner s p = some none := by
  unfold owner
  by_cases hal : p % alignSize = 0
  · rw [if_neg (not_not.mpr hal)]
    obtain ⟨l, hpath, hnd, hused⟩ := h.bucket (hash p)
    have hlen := length_le_of_nodup hnd fun i hi => (hused i hi).2
    have hfuel : l.length + 1 ≤ s.avail + 1 := by omega
    rcases findLoop_cases p hpath hfuel with ⟨i, hi, -, hf⟩ | ⟨-, hf⟩
    · rw [find, hf]
      by_cases hfree : s.freeOf i = none
      · exact .inl ⟨i, hused i hi, hfree, rfl, by simpa [Mem.freeOf] using hfree⟩
      · exact .inr (by simpa [Mem.freeOf] using hfree)
    · rw [find, hf]
      exact .inr rfl
  · rw [if_pos hal]
    exact .inr rfl

/-! ## Reachable states -/

theorem Wired.free (p : Nat) (loc : Coord) : Intact (memoryFree p loc s) := by
  unfold memoryFree
  by_cases hp : p = 0
  · rw [if_pos hp]
    exact ⟨nofun, ring, h⟩
  rw [if_neg hp]
  rcases h.owner_cases p with ⟨i, hu, hfree, -, ho⟩ | ho
  · rw [ho]
    exact ⟨nofun, i :: ring, h.release hu fun hi => h.free_ne_none hi hfree⟩
  · rw [ho]
    exact ⟨nofun, ring, h⟩

end

/-- The rest of `Memory_calloc`, after `Memory_alloc`. -/
def zeroed (n : Nat) : Outcome Exc Nat × Mem → Outcome Exc Nat × Mem
  | (.ok ptr, s) => (.ok ptr, s.memset ptr 0 n)
  | (o, s) => (o, s)

/-- The rest of `Memory_resize`, after `Memory_alloc`. -/
def moved (ptr nbytes i : Nat) (loc : Coord) : Outcome Exc Nat × Mem → Outcome Exc Nat × Mem
  | (.ok newptr, s) =>
    match memoryFree ptr loc (s.memcpy newptr ptr (min nbytes (s.desc i).size)) with
    | (.ok (), s) => (.ok newptr, s)
    | (.raise e l, s) => (.raise e l, s)
    | (.stuck, s) => (.stuck, s)
  | (o, s) => (o, s)

theorem memoryCallocIn_eq (M : Malloc) (fuel : Nat) {count : Nat} (hcount : count ≠ 0) (hn : n ≠ 0)
    (loc : Coord) (s : Mem) : memoryCallocIn M fuel count n loc s
      = zeroed (sizeT (count * n)) (memoryAllocIn M fuel (sizeT (count * n)) loc s) := by
  simp only [memoryCallocIn, if_neg hcount, if_neg hn]
  rfl

theorem memoryResizeIn_eq (M : Malloc) (fuel : Nat) (hp : p ≠ 0) (hn : n ≠ 0)
    (hi : owner s p = some (some i)) (loc : Coord) :
    memoryResizeIn M fuel p n loc s = moved p n i loc (memoryAllocIn M fuel n loc s) := by
  simp only [memoryResizeIn, if_neg hp, if_neg hn, hi]
  rfl

theorem Intact.map {α β : Type} {r : Outcome Exc α × Mem} (h : Intact r) (f : α → β) :
    Intact (r.map (Outcome.map f) id) := by
  obtain ⟨o, s⟩ := r
  cases o with
  | ok p | raise e l => exact ⟨nofun, h.2⟩
  | stuck => exact (h.1 rfl).elim

theorem Intact.zeroed (h : Intact r) (n : Nat) : Intact (zeroed n r) := by
  obtain ⟨o, s⟩ := r
  obtain ⟨hend, ring, hw⟩ := h
  cases o with
  | ok p => exact ⟨nofun, ring, hw.bytes _⟩
  | raise e l => exact ⟨nofun, ring, hw⟩
  | stuck => exact (hend rfl).elim

theorem Intact.moved (h : Intact r) (p n i : Nat) (loc : Coord) : Intact (moved p n i loc r) := by
  obtain ⟨o, s⟩ := r
  obtain ⟨hend, ring, hw⟩ := h
  cases o with
  | ok q =>
    have hfree := (hw.bytes (s.memcpy q p (min n (s.desc i).size)).bytes).free p loc
    rcases hf : memoryFree p loc (s.memcpy q p (min n (s.desc i).size)) with ⟨o, s'⟩
    obtain ⟨hend', hw'⟩ := show Intact (o, s') from hf ▸ hfree
    cases o with
    | ok _ | raise e l =>
      simp only [MemoryDev.moved, hf]
      exact ⟨nofun, hw'⟩
    | stuck => exact (hend' rfl).elim
  | raise e l => exact ⟨nofun, ring, hw⟩
  | stuck => exact (hend rfl).elim

/-- One call, with a bound for the steps of the loop. -/
def execIn (M : Malloc) (fuel : Nat) (s : Mem) : Call → Outcome Exc (Option Nat) × Mem
  | .alloc n loc => (memoryAllocIn M fuel n loc s).map (Outcome.map some) id
  | .calloc count n loc => (memoryCallocIn M fuel count n loc s).map (Outcome.map some) id
  | .resize p n loc => (memoryResizeIn M fuel p n loc s).map (Outcome.map some) id
  | .free p loc => (memoryFree p loc s).map (Outcome.map fun _ => none) id

/-- The states after any calls, whatever is asked for. -/
inductive Reached (M : Malloc) : Mem → Prop where
  | init : Reached M .init
  | call {s : Mem} {c : Call} {r : Outcome Exc (Option Nat) × Mem} :
      Reached M s → Settles (fun fuel => execIn M fuel s c) r → Reached M r.2

section

variable (h : Wired s ring) (M : Malloc)
include h M

theorem Wired.settles_alloc (n : Nat) (loc : Coord) :
    ∃ r, Settles (fun fuel => memoryAllocIn M fuel n loc s) r ∧ Intact r := by
  by_cases hn : n = 0
  · subst hn
    exact ⟨_, .of_eq fun fuel => rfl, nofun, ring, h⟩
  · obtain ⟨r, hr, hreq, -⟩ := h.alloc M hn loc
    obtain ⟨ring', hw, -⟩ := hreq.wired
    exact ⟨r, hr, hreq.ended, ring', hw⟩

theorem Wired.settles_calloc (count n : Nat) (loc : Coord) :
    ∃ r, Settles (fun fuel => memoryCallocIn M fuel count n loc s) r ∧ Intact r := by
  by_cases hcount : count = 0
  · subst hcount
    exact ⟨_, .of_eq fun fuel => rfl, nofun, ring, h⟩
  by_cases hn : n = 0
  · subst hn
    exact ⟨(.raise .preconditionFailed (here 168), s),
      .of_eq fun fuel => by simp only [memoryCallocIn, if_neg hcount, if_true], nofun, ring, h⟩
  obtain ⟨r, hr, hin⟩ := h.settles_alloc M (sizeT (count * n)) loc
  simp only [memoryCallocIn_eq M _ hcount hn loc s]
  exact ⟨_, Ends.map hr (MemoryDev.zeroed (sizeT (count * n))), hin.zeroed _⟩

theorem Wired.settles_resize (p n : Nat) (loc : Coord) :
    ∃ r, Settles (fun fuel => memoryResizeIn M fuel p n loc s) r ∧ Intact r := by
  by_cases hp : p = 0
  · subst hp
    exact ⟨_, .of_eq fun fuel => rfl, by simp, ring, h⟩
  by_cases hn : n = 0
  · subst hn
    exact ⟨(.raise .preconditionFailed (here 180), s),
      .of_eq fun fuel => by simp only [memoryResizeIn, if_neg hp, if_true], by simp, ring, h⟩
  rcases h.owner_cases p with ⟨i, -, -, -, ho⟩ | ho
  · obtain ⟨r, hr, hin⟩ := h.settles_alloc M n loc
    simp only [memoryResizeIn_eq M _ hp hn ho loc]
    exact ⟨_, Ends.map hr (MemoryDev.moved p n i loc), hin.moved p n i loc⟩
  · exact ⟨(.raise .assertFailed loc, s),
      .of_eq fun fuel => by simp only [memoryResizeIn, if_neg hp, if_neg hn, ho], by simp, ring, h⟩

theorem Wired.settles_exec (c : Call) : ∃ r, Settles (fun fuel => execIn M fuel s c) r ∧
    Intact r := by
  have hmap : ∀ {f : Nat → Outcome Exc Nat × Mem}, (∃ r, Settles f r ∧ Intact r) →
      ∃ r, Settles (fun fuel => (f fuel).map (Outcome.map some) id) r ∧ Intact r := by
    rintro f ⟨r, hr, hin⟩
    exact ⟨_, Ends.map hr (Prod.map (Outcome.map some) id), hin.map some⟩
  cases c with
  | alloc n loc => exact hmap (h.settles_alloc M n loc)
  | calloc count n loc => exact hmap (h.settles_calloc M count n loc)
  | resize p n loc => exact hmap (h.settles_resize M p n loc)
  | free p loc =>
    exact ⟨execIn M 0 s (.free p loc), .of_eq fun fuel => rfl, (h.free p loc).map fun _ => none⟩

end

/-- **Every reachable state is wired,** also after requests that wrap. -/
theorem Reached.wired {M : Malloc} (h : Reached M s) : ∃ ring, Wired s ring := by
  induction h with
  | init => exact ⟨[], .init⟩
  | @call s c r _ hr ih =>
    obtain ⟨ring, hw⟩ := ih
    -- the call has only one result
    obtain ⟨r', hr', -, hw'⟩ := hw.settles_exec M c
    exact hr.unique hr' ▸ hw'

/-- A request for memory. -/
inductive Request where
  | alloc (nbytes : Nat)
  | calloc (count nbytes : Nat)
deriving Repr, DecidableEq

/-- The number of bytes asked for. -/
def Request.size : Request → Nat
  | .alloc n => n
  | .calloc count n => count * n

/-- The arguments are positive and of type `size_t`. -/
def Request.Valid : Request → Prop
  | .alloc n => 0 < n ∧ n < 2 ^ 64
  | .calloc count n => (0 < count ∧ count < 2 ^ 64) ∧ 0 < n ∧ n < 2 ^ 64

instance : (q : Request) → Decidable q.Valid
  | .alloc _ => inferInstanceAs (Decidable (_ ∧ _))
  | .calloc _ _ => inferInstanceAs (Decidable (_ ∧ _))

def Request.execIn (M : Malloc) (fuel : Nat) (loc : Coord) (s : Mem) : Request →
    Outcome Exc Nat × Mem
  | .alloc n => memoryAllocIn M fuel n loc s
  | .calloc count n => memoryCallocIn M fuel count n loc s

/-- The request has raised an exception, or it has returned a block of at
least `n` bytes. -/
def Delivers (n : Nat) (r : Outcome Exc Nat × Mem) : Prop :=
  match r.1 with
  | .ok p => ∃ e, r.2.block p = some e ∧ e.base = p ∧ n ≤ e.size ∧ ∃ q ∈ r.2.heap.held, e.Within q
  | .raise _ _ => True
  | .stuck => False

/-- The rounded size of a request modulo `2 ^ 64` covers the request exactly
when rounding does not wrap. -/
theorem le_roundUp_iff (n : Nat) : n ≤ roundUp (sizeT n) ↔ n + 15 < 2 ^ 64 := by
  constructor
  · intro h
    have := roundUp_lt (sizeT n)
    omega
  · intro h
    rw [roundUp, sizeT_of_lt (n := n) (by omega), sizeT_of_lt (by unfold alignSize; omega)]
    unfold alignSize
    omega

theorem Requested.delivers_iff (h : Requested s ring (roundUp (sizeT n)) r) :
    Delivers n r ↔ n + 15 < 2 ^ 64 ∨ ∀ p, r.1 ≠ .ok p := by
  obtain ⟨o, s'⟩ := r
  cases o with
  | ok p =>
    obtain ⟨hblock, hin⟩ := h.ok p rfl
    rw [or_iff_left (by simp), ← le_roundUp_iff]
    constructor
    · rintro ⟨e, he, -, hle, -⟩
      obtain rfl := some.inj (hblock.symm.trans he)
      exact hle
    · exact fun hle => ⟨_, hblock, rfl, hle, hin⟩
  | raise e l => simp [Delivers]
  | stuck => exact absurd rfl h.ended

theorem Requested.delivers_zeroed {m : Nat} (h : Requested s ring m r) :
    Delivers n (zeroed k r) ↔ Delivers n r := by
  obtain ⟨ring', hw, -⟩ := h.wired
  obtain ⟨o, s'⟩ := r
  cases o with
  | ok p => simp only [Delivers, zeroed, Mem.memset, hw.block_bytes]
  | raise e l | stuck => exact Iff.rfl

/-- **Short blocks.** Every request ends. It raises an exception or returns a
block as long as asked for, if and only if the size, over the integers, can be
rounded up without wrapping; or it wraps to 0, which `Memory_alloc` does not accept; or no block
of the wrapped size can be handed out in this state. -/
theorem not_short_iff (M : Malloc) (loc : Coord) (h : Wired s ring) {q : Request} (hq : q.Valid) :
    ∃ r, Settles (fun fuel => q.execIn M fuel loc s) r ∧ (Delivers q.size r ↔ q.size + 15 < 2 ^ 64 ∨
      sizeT q.size = 0 ∨ BlockRefused M (roundUp (sizeT q.size)) ring s) := by
  cases q with
  | alloc n =>
    have hn : sizeT n = n := sizeT_of_lt hq.2
    obtain ⟨r, hsettles, hreq, hback⟩ := h.alloc M (Nat.ne_of_gt hq.1) loc
    rw [← hn] at hreq
    refine ⟨r, hsettles, ?_⟩
    rw [Request.size, hreq.delivers_iff, ← hback, hn, or_iff_right (Nat.ne_of_gt hq.1)]
  | calloc count n =>
    obtain ⟨⟨hcount, -⟩, hn, -⟩ := hq
    by_cases h0 : sizeT (count * n) = 0
    · refine ⟨(.raise .preconditionFailed (here 102), s), ⟨0, fun fuel _ => ?_⟩,
        iff_of_true trivial (.inr (.inl h0))⟩
      simp only [Request.execIn, memoryCallocIn, memoryAllocIn, if_neg (Nat.ne_of_gt hcount),
        if_neg (Nat.ne_of_gt hn), h0, if_true]
    · obtain ⟨r, hsettles, hreq, hback⟩ := h.alloc M h0 loc
      have hdel := hreq.delivers_zeroed (n := count * n) (k := sizeT (count * n))
      simp only [Request.execIn, memoryCallocIn_eq M _ (Nat.ne_of_gt hcount)
        (Nat.ne_of_gt hn) loc s]
      refine ⟨_, Ends.map hsettles (zeroed (sizeT (count * n))), ?_⟩
      rw [Request.size, hdel, hreq.delivers_iff, ← hback, or_iff_right h0]

/-- 100 bytes are asked for. -/
theorem not_short_hundred :
    ∃ r, Settles (fun fuel => (Request.calloc 10 10).execIn .bump fuel (here 1) .init) r ∧
    Delivers 100 r := by
  obtain ⟨r, hr, hiff⟩ := not_short_iff .bump (here 1) Wired.init (q := .calloc 10 10) (by decide)
  exact ⟨r, hr, hiff.2 (.inl (by decide))⟩

/-- 2 times `2 ^ 63 + 8` bytes are 16 bytes modulo `2 ^ 64`. -/
theorem calloc_short :
    ∃ r, Settles (fun fuel => (Request.calloc 2 (2 ^ 63 + 8)).execIn .bump fuel (here 1) .init) r ∧
    ¬ Delivers (2 * (2 ^ 63 + 8)) r := by
  refine ⟨(Request.calloc 2 (2 ^ 63 + 8)).execIn .bump 3 (here 1) .init,
    ⟨3, fun fuel hle => ?_⟩, ?_⟩
  · obtain ⟨fuel, rfl⟩ := Nat.exists_eq_add_of_le' hle
    rfl
  · rintro ⟨e, he, -, hle, -⟩
    obtain rfl := some.inj (he.symm.trans (show _ = some ⟨4112, 16⟩ from rfl))
    exact absurd hle (by decide)

/-! ## Failing requests -/

/-- Following `free` from `freelist` one meets exactly the descriptors `l`. -/
def IsFreeList (s : Mem) (l : List Nat) : Prop := Path s.freeOf (s.freeOf 0) l (some 0) ∧ 0 ∉ l

/-- There is a live block at `p`, with the space `e`. -/
def LiveAt (s : Mem) (p : Nat) (e : Extent) : Prop := ∃ i, owner s p = some (some i) ∧
    s.extent i = e

/-- The live blocks, the free list and the sizes on it are the same. -/
structure Unchanged (s s' : Mem) : Prop where
  live : ∀ p e, LiveAt s' p e ↔ LiveAt s p e
  freeList : ∀ l, IsFreeList s' l ↔ IsFreeList s l
  sizes : ∀ l, IsFreeList s l → ∀ i ∈ l, (s'.desc i).size = (s.desc i).size

theorem Wired.isFreeList (h : Wired s ring) : IsFreeList s ring :=
  ⟨h.path, fun h0 => Nat.lt_irrefl 0 (h.used 0 h0).1⟩

theorem IsFreeList.unique {l l' : List Nat} (h : IsFreeList s l) (h' : IsFreeList s l') : l = l' :=
  h.1.unique h'.1 h.2 h'.2

/-- Only the heap's call count is different. -/
theorem Wired.unchanged_of_desc (h : Wired s ring) (hdesc : s'.desc = s.desc)
    (htab : s'.htab = s.htab) (havail : s'.avail = s.avail) : Unchanged s s' := by
  have hfree : s'.freeOf = s.freeOf := by
    funext i
    rw [Mem.freeOf, Mem.freeOf, hdesc]
  have hfind : ∀ p, find s' p = find s p := fun p =>
    h.find_eq (Nat.le_of_eq havail.symm) htab (fun i _ =>
    ⟨by rw [hdesc], by rw [Mem.linkOf, hdesc]; rfl⟩) p
  have howner : ∀ p, owner s' p = owner s p := fun p => by
    rw [owner, owner, hfind, hdesc]
  refine ⟨fun p e => ?_, fun l => ?_, fun l _ i _ => by rw [hdesc]⟩
  · simp only [LiveAt, howner, Mem.extent, hdesc]
  · simp only [IsFreeList, hfree]

/-- **Failing requests.** When `Memory_alloc` raises `Memory_Failed`, the live
blocks, the free list and the sizes on it are as before, if and only if no
descriptor had the space and the chunk was refused; or the request, rounded up,
wrapped to 0, so that nothing was cut off. -/
theorem failed_unchanged_iff (M : Malloc) (loc : Coord) (h : Wired s ring) {nbytes : Nat}
    {l : Coord} {s' : Mem}
    (hr : Settles (fun fuel => memoryAllocIn M fuel nbytes loc s) (.raise .memoryFailed l, s')) :
    Unchanged s s' ↔ (roundUp nbytes = 0 ∧ ∃ i ∈ ring, 0 < (s.desc i).size) ∨
      ((∀ i ∈ ring, (s.desc i).size ≤ roundUp nbytes) ∧ ChunkRefused M (roundUp nbytes) s) := by
  have hn : nbytes ≠ 0 := by
    rintro rfl
    have := hr.unique (.of_eq fun fuel => rfl)
    simp at this
  simp only [memoryAllocIn, if_neg hn] at hr
  have hlt : roundUp nbytes < 2 ^ 64 := Nat.lt_of_add_right_lt (roundUp_lt nbytes)
  generalize roundUp nbytes = n at hr hlt ⊢
  rcases h.first_fit M n loc with ⟨i, hi, hfit, k, -, hwalk⟩ | ⟨hsmall, k, -, hwalk⟩
  · -- the descriptor `i` has been cut
    have hbig : ¬ ∀ i ∈ ring, (s.desc i).size ≤ n := fun hall => Nat.not_lt.2 (hall i hi) hfit
    rw [or_iff_left fun hc => hbig hc.1]
    rcases h.cut_cases M loc hi hfit with ⟨-, r, hcut, ⟨p, hp⟩, -⟩ | ⟨-, l', H, -, hcut⟩
    · obtain rfl := hr.unique ((settles_of_succ hcut).steps hwalk)
      cases hp
    obtain ⟨-, rfl⟩ := Prod.mk.inj (hr.unique ((settles_of_succ hcut).steps hwalk))
    constructor
    · intro hun
      have hsize := hun.sizes ring h.isFreeList i hi
      simp only [Mem.setSize_desc, if_pos] at hsize
      exact ⟨by omega, i, hi, by omega⟩
    · rintro ⟨rfl, -⟩
      refine h.unchanged_of_desc ?_ rfl rfl
      funext j
      simp only [Nat.sub_zero, Mem.setSize_desc]
      split_ifs with hj
      · rw [hj]
      · rfl
  · rcases h.chunk_cases M n loc with ⟨hrefused, l', H, -, hchunk⟩ | ⟨hgranted, s1, h1, -, -, -, -,
      -, -, -, -, hchunk⟩
    · obtain ⟨-, rfl⟩ := Prod.mk.inj (hr.unique ((settles_of_succ hchunk).steps hwalk))
      exact iff_of_true (h.unchanged_of_desc rfl rfl rfl) (.inr ⟨hsmall, hrefused⟩)
    · -- the new chunk stays on the free list
      obtain ⟨r, hsettles, hreq, -⟩ := h1.request M hlt loc
      obtain rfl := hr.unique ((hsettles.steps hchunk).steps hwalk)
      obtain ⟨ring', hw, hsub⟩ := hreq.wired
      refine iff_of_false (fun hun => ?_) ?_
      · obtain rfl := ((hun.freeList ring).2 h.isFreeList).unique hw.isFreeList
        exact Nat.lt_irrefl _ (h.used _ (hsub mem_cons_self)).2
      · rintro (⟨rfl, i, hi, hpos⟩ | ⟨-, hc⟩)
        · exact Nat.not_lt.2 (hsmall i hi) hpos
        · exact hgranted hc

/-- A `malloc` that returns NULL from the fourth call on. -/
def threeRegions : Malloc where
  pick t held n := if t < 3 then Malloc.bump.pick t held n else none
  sound h := by
    split_ifs at h
    exact Malloc.bump.sound h

/-- Two chunks, each with space left, and three blocks. -/
def threeBlocks : Mem :=
  (run threeRegions [.alloc 16 (here 3), .alloc 8000 (here 2), .alloc 40 (here 1)]).2

/-- A third chunk is refused. -/
theorem failed_unchanged_third :
    ∃ l s', Settles (fun fuel => memoryAllocIn threeRegions fuel 5000 (here 4) threeBlocks)
    (.raise .memoryFailed l, s') ∧ Unchanged threeBlocks s' := by
  have hsmall : ∀ c ∈ [Call.alloc 16 (here 3), .alloc 8000 (here 2), .alloc 40 (here 1)],
      Small c.request := by
    decide
  obtain ⟨-, ring, tab, ht⟩ := run_tracks threeRegions hsmall
  have h : Wired threeBlocks ring := ht.sound.wired
  have hring : IsFreeList threeBlocks [3, 1] := ⟨⟨rfl, rfl, rfl⟩, by decide⟩
  have hr : Settles (fun fuel => memoryAllocIn threeRegions fuel 5000 (here 4) threeBlocks)
      (memoryAllocIn threeRegions 3 5000 (here 4) threeBlocks) := ⟨3, fun fuel hle => by
    obtain ⟨fuel, rfl⟩ := Nat.exists_eq_add_of_le' hle
    rfl⟩
  refine ⟨_, _, hr, (failed_unchanged_iff threeRegions (here 4) h hr).2 (.inr ?_)⟩
  rw [h.isFreeList.unique hring]
  decide +kernel

/-- 510 blocks use up the first pool of descriptors. -/
def drained : Mem := (run threeRegions (List.replicate 510 (.alloc 16 (here 1)))).2

/-- The next block is cut off before `malloc` returns NULL for a new pool. -/
theorem failed_changed_drained :
    ∃ l s', Settles (fun fuel => memoryAllocIn threeRegions fuel 16 (here 2) drained)
    (.raise .memoryFailed l, s') ∧ ¬ Unchanged drained s' := by
  have hsmall : ∀ c ∈ List.replicate 510 (Call.alloc 16 (here 1)), Small c.request := fun c hc => by
    rw [eq_of_mem_replicate hc]
    decide
  obtain ⟨-, ring, tab, ht⟩ := run_tracks threeRegions hsmall
  have h : Wired drained ring := ht.sound.wired
  obtain ⟨hfirst, hsize, hpool⟩ : drained.freeOf 0 = some 258 ∧ 16 < (drained.desc 258).size ∧
      PoolRefused threeRegions drained := by decide +kernel
  have hmem : 258 ∈ ring := (h.path.head_mem hfirst).resolve_right (by decide)
  have halloc : ∀ fuel, memoryAllocIn threeRegions fuel 16 (here 2) drained
      = allocLoop threeRegions 16 (here 2) fuel (some 258) drained := fun fuel => by
    rw [memoryAllocIn, if_neg (by decide), ← hfirst, show roundUp 16 = 16 from rfl, Mem.freeOf]
  rcases h.cut_cases threeRegions (here 2) hmem hsize with ⟨hgranted, -⟩ | ⟨-, l, H, -, hcut⟩
  · exact absurd hpool hgranted
  · refine ⟨l, _, settles_of_succ fun fuel => (halloc _).trans (hcut fuel), fun hun => ?_⟩
    have := hun.sizes ring h.isFreeList 258 hmem
    simp only [Mem.setSize_desc, if_pos] at this
    omega

end MemoryDev

end CLangProject
