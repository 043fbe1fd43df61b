import CLangProject.MemDevSound

/-!
# Runs of the checked allocator

A run is a list of calls, the latest first; it yields its history, each
call with the way it ended, and the final state. A call that raised leaves
the run going: a handler may have caught the exception. From the history
alone one reads which pointers were ever returned and which blocks are
live, without looking into the allocator's state.

`Tracks` relates the two: the live blocks of the history are the table
entries with a NULL `free` link. Every call keeps it, so the separation of
blocks and the detection of bad frees hold after every run.
-/

namespace CLangProject

open List Option

namespace MemoryDev

/-! ## Specification of the operations -/

/-- Rounding `n` and adding `NALLOC` stay below `2 ^ 64`. -/
def Small (n : Nat) : Prop :=
  n + alignSize - 1 < 2 ^ 64 ∧ (n + alignSize - 1) / alignSize * alignSize + nalloc < 2 ^ 64

instance (n : Nat) : Decidable (Small n) := inferInstanceAs (Decidable (_ ∧ _))

theorem roundUp_of_small {n : Nat} (h : Small n) (hn : 0 < n) :
    n ≤ roundUp n ∧ alignSize ∣ roundUp n ∧ roundUp n + nalloc < 2 ^ 64 := by
  obtain ⟨h1, h2⟩ := h
  unfold roundUp
  rw [sizeT_of_lt h1]
  refine ⟨?_, Nat.dvd_mul_left _ _, h2⟩
  unfold alignSize at *
  omega

section
variable {s : Mem} {ring tab : List Nat}

theorem memoryAlloc_spec (M : Malloc) (loc : Coord) {n : Nat} (hn : 0 < n) (hsmall : Small n)
    (h : Sound s ring tab) : AllocSpec s tab (roundUp n) (memoryAlloc M n loc s) := by
  obtain ⟨hle, hdvd, hlt⟩ := roundUp_of_small hsmall hn
  unfold memoryAlloc memoryAllocIn
  rw [if_neg (Nat.ne_of_gt hn)]
  have hlen := length_le_of_nodup h.ring_nodup fun i hi => (h.ring_used i hi).2
  exact allocLoop_spec M loc (Nat.lt_of_lt_of_le hn hle) hdvd hlt h (by omega)

theorem findLoop_cases (p : Nat) {q : Option Nat} {l : List Nat}
    (hpath : Path s.linkOf q l none) {fuel : Nat} (hfuel : l.length + 1 ≤ fuel) :
    (∃ i ∈ l, (s.desc i).ptr = p ∧ findLoop s p fuel q = some (some i))
      ∨ ((∀ i ∈ l, (s.desc i).ptr ≠ p) ∧ findLoop s p fuel q = some none) := by
  induction l generalizing q fuel with
  | nil =>
    obtain ⟨fuel, rfl⟩ : ∃ k, fuel = k + 1 := ⟨fuel - 1, by simp at hfuel; omega⟩
    rw [show q = none from hpath]
    exact Or.inr ⟨by simp, rfl⟩
  | cons i l ih =>
    obtain ⟨rfl, hpath⟩ := hpath
    obtain ⟨fuel, rfl⟩ : ∃ k, fuel = k + 1 := ⟨fuel - 1, by simp at hfuel; omega⟩
    by_cases hp : (s.desc i).ptr = p
    · exact Or.inl ⟨i, mem_cons_self, hp, by simp [findLoop, hp]⟩
    · have hstep : findLoop s p (fuel + 1) (some i) = findLoop s p fuel (s.linkOf i) := by
        simp [findLoop, hp, Mem.linkOf]
      rw [hstep]
      have hfuel : l.length + 1 ≤ fuel := by
        rw [length_cons] at hfuel
        omega
      rcases ih hpath hfuel with ⟨j, hj, hfound⟩ | ⟨hnone, hfound⟩
      · exact Or.inl ⟨j, mem_cons_of_mem _ hj, hfound⟩
      · exact Or.inr ⟨forall_mem_cons.mpr ⟨hp, hnone⟩, hfound⟩

/-- `__find` returns the table entry with that address, or NULL when there
is none. -/
theorem find_cases (h : Sound s ring tab) (p : Nat) :
    (∃ i ∈ tab, (s.desc i).ptr = p ∧ find s p = some (some i))
      ∨ ((∀ i ∈ tab, (s.desc i).ptr ≠ p) ∧ find s p = some none) := by
  obtain ⟨l, hpath, hnd, hmem⟩ := h.bucket (hash p)
  have hlen := length_le_of_nodup hnd fun i hi => (h.tab_used i ((hmem i).mp hi).1).2
  have hfuel : l.length + 1 ≤ s.avail + 1 := by omega
  rcases findLoop_cases p hpath hfuel with ⟨i, hi, hp, hf⟩ | ⟨hn, hf⟩
  · exact Or.inl ⟨i, ((hmem i).mp hi).1, hp, hf⟩
  · refine Or.inr ⟨fun i hi hp => hn i ((hmem i).mpr ⟨hi, ?_⟩) hp, hf⟩
    rw [hp]

/-- The test of `Memory_free` and `Memory_resize` accepts exactly the
address of a table entry with a NULL `free` link. -/
theorem owner_cases (h : Sound s ring tab) (p : Nat) :
    (∃ i ∈ tab, (s.desc i).ptr = p ∧ s.freeOf i = none ∧ owner s p = some (some i))
      ∨ ((∀ i ∈ tab, (s.desc i).ptr = p → s.freeOf i ≠ none) ∧ owner s p = some none) := by
  unfold owner
  by_cases hal : p % alignSize = 0
  · rw [if_neg (not_not.mpr hal)]
    rcases find_cases h p with ⟨i, hi, hp, hf⟩ | ⟨hn, hf⟩
    · rw [hf]
      by_cases hfree : s.freeOf i = none
      · exact Or.inl ⟨i, hi, hp, hfree, by simpa [Mem.freeOf] using hfree⟩
      · refine Or.inr ⟨fun j hj hpj => ?_, by simpa [Mem.freeOf] using hfree⟩
        -- entries with one address are one entry
        obtain rfl : j = i := h.separate.base_inj (h.tab_used j hj) (h.tab_used i hi)
          (hpj.trans hp.symm)
        exact hfree
    · rw [hf]
      exact Or.inr ⟨fun j hj hpj => absurd hpj (hn j hj), rfl⟩
  · rw [if_pos hal]
    refine Or.inr ⟨fun j hj hpj => absurd ?_ hal, rfl⟩
    rw [← hpj]
    exact Nat.mod_eq_zero_of_dvd (h.aligned j (h.tab_used j hj)).1

end

/-! ## Histories -/

inductive Call where
  | alloc (nbytes : Nat) (loc : Coord)
  | calloc (count nbytes : Nat) (loc : Coord)
  | resize (ptr nbytes : Nat) (loc : Coord)
  | free (ptr : Nat) (loc : Coord)
deriving Repr, DecidableEq

/-- One call; the value is the pointer it returns, if it returns one. -/
def exec (M : Malloc) (s : Mem) : Call → Outcome Exc (Option Nat) × Mem
  | .alloc n loc => (memoryAlloc M n loc s).map (Outcome.map some) id
  | .calloc count n loc => (memoryCalloc M count n loc s).map (Outcome.map some) id
  | .resize p n loc => (memoryResize M p n loc s).map (Outcome.map some) id
  | .free p loc => (memoryFree p loc s).map (Outcome.map fun _ => none) id

abbrev Event := Call × Outcome Exc (Option Nat)

/-- The run of the calls from the initial state, the latest call first. -/
def run (M : Malloc) : List Call → List Event × Mem
  | [] => ([], Mem.init)
  | c :: calls =>
    let (hist, s) := run M calls
    let (o, s') := exec M s c
    ((c, o) :: hist, s')

structure Block where
  ptr : Nat
  request : Nat
deriving Repr, DecidableEq

/-- The number of bytes asked for. -/
def Call.request : Call → Nat
  | .alloc n _ => n
  | .calloc count n _ => count * n
  | .resize _ n _ => n
  | .free _ _ => 0

/-- The block the call gives back when it succeeds. -/
def Call.gives : Call → Option Nat
  | .resize p _ _ => some p
  | .free p _ => some p
  | _ => none

/-- Every pointer the calls of the history returned. -/
def returned : List Event → List Nat
  | [] => []
  | (_, .ok (some p)) :: hist => p :: returned hist
  | _ :: hist => returned hist

/-- The blocks returned and not given back since. -/
def live : List Event → List Block
  | [] => []
  | (c, .ok (some p)) :: hist =>
    ⟨p, c.request⟩ :: (live hist).filter (fun b => c.gives ≠ some b.ptr)
  | (c, .ok none) :: hist => (live hist).filter (fun b => c.gives ≠ some b.ptr)
  | _ :: hist => live hist

/-! ## The history describes the table -/

structure Tracks (ret : List Nat) (blocks : List Block) (s : Mem) (ring tab : List Nat) : Prop where
  sound : Sound s ring tab
  ret_tab : ∀ p ∈ ret, ∃ i ∈ tab, (s.desc i).ptr = p
  ret_nodup : ret.Nodup
  live_tab : ∀ b ∈ blocks, ∃ i ∈ tab, s.freeOf i = none ∧ (s.desc i).ptr = b.ptr
    ∧ b.request ≤ (s.desc i).size
  tab_live : ∀ i ∈ tab, s.freeOf i = none → ∃ b ∈ blocks, b.ptr = (s.desc i).ptr
  live_nodup : (blocks.map Block.ptr).Nodup

section
variable {s s' : Mem} {ret : List Nat} {blocks : List Block} {ring ring' tab : List Nat}

section

variable (h : Tracks ret blocks s ring tab)
include h

/-- A failed call. -/
theorem Tracks.kept (hk : Kept s s')
    (hs : Sound s' ring' tab) : Tracks ret blocks s' ring' tab where
  sound := hs
  ret_tab p hp := by
    obtain ⟨i, hi, hptr⟩ := h.ret_tab p hp
    exact ⟨i, hi, (hk.ptr i (h.sound.tab_used i hi)).trans hptr⟩
  ret_nodup := h.ret_nodup
  live_tab b hb := by
    obtain ⟨i, hi, hf, hptr, hsize⟩ := h.live_tab b hb
    have hu := h.sound.tab_used i hi
    exact ⟨i, hi, (hk.free i hu).mpr hf, (hk.ptr i hu).trans hptr,
      by rw [hk.size i hu hf]; exact hsize⟩
  tab_live i hi hf := by
    have hu := h.sound.tab_used i hi
    obtain ⟨b, hb, hptr⟩ := h.tab_live i hi ((hk.free i hu).mp hf)
    exact ⟨b, hb, hptr.trans (hk.ptr i hu).symm⟩
  live_nodup := h.live_nodup

/-- A block has been handed out under the new entry `k`. -/
theorem Tracks.alloc (hk : Kept s s') {k p n : Nat}
    (hnew : s.avail ≤ k) (hs : Sound s' ring' (k :: tab)) (hfree : s'.freeOf k = none)
    (hptr : (s'.desc k).ptr = p) (hsize : n ≤ (s'.desc k).size) :
    Tracks (p :: ret) (⟨p, n⟩ :: blocks) s' ring' (k :: tab) := by
  have hku : s'.Used k := hs.tab_used k mem_cons_self
  -- the address is new: the entry is, and entries have distinct addresses
  have hfresh : ∀ i ∈ tab, (s.desc i).ptr ≠ p := by
    intro i hi he
    have hu := h.sound.tab_used i hi
    have hik : i = k := hs.separate.base_inj (hk.used hu) hku
      (((hk.ptr i hu).trans he).trans hptr.symm)
    have := hu.2
    omega
  exact {
    sound := hs
    ret_tab := by
      intro q hq
      rcases mem_cons.mp hq with rfl | hq
      · exact ⟨k, mem_cons_self, hptr⟩
      · obtain ⟨i, hi, hiq⟩ := h.ret_tab q hq
        exact ⟨i, mem_cons_of_mem _ hi, (hk.ptr i (h.sound.tab_used i hi)).trans hiq⟩
    ret_nodup := by
      refine nodup_cons.mpr ⟨fun hmem => ?_, h.ret_nodup⟩
      obtain ⟨i, hi, hip⟩ := h.ret_tab p hmem
      exact hfresh i hi hip
    live_tab := by
      intro b hb
      rcases mem_cons.mp hb with rfl | hb
      · exact ⟨k, mem_cons_self, hfree, hptr, hsize⟩
      · obtain ⟨i, hi, hf, hib, hreq⟩ := h.live_tab b hb
        have hu := h.sound.tab_used i hi
        exact ⟨i, mem_cons_of_mem _ hi, (hk.free i hu).mpr hf, (hk.ptr i hu).trans hib,
          by rw [hk.size i hu hf]; exact hreq⟩
    tab_live := by
      intro i hi hf
      rcases mem_cons.mp hi with rfl | hi
      · exact ⟨_, mem_cons_self, hptr.symm⟩
      · have hu := h.sound.tab_used i hi
        obtain ⟨b, hb, hbi⟩ := h.tab_live i hi ((hk.free i hu).mp hf)
        exact ⟨b, mem_cons_of_mem _ hb, hbi.trans (hk.ptr i hu).symm⟩
    live_nodup := by
      rw [map_cons]
      refine nodup_cons.mpr ⟨fun hmem => ?_, h.live_nodup⟩
      obtain ⟨b, hb, rfl⟩ := mem_map.mp hmem
      obtain ⟨i, hi, -, hib, -⟩ := h.live_tab b hb
      exact hfresh i hi hib }

/-- A live block has been given back. -/
theorem Tracks.free {i : Nat} (hi : i ∈ tab) (hf : s.freeOf i = none) :
    Tracks ret (blocks.filter fun b => some (s.desc i).ptr ≠ some b.ptr) (release i s)
      (i :: ring) tab := by
  have hu := h.sound.tab_used i hi
  have hs := h.sound.release hu ((h.sound.free_eq_none_iff hu).mp hf)
  have hdesc := release_desc s (Nat.ne_of_gt hu.1)
  have hptr : ∀ j, ((release i s).desc j).ptr = (s.desc j).ptr := by
    intro j; rw [hdesc]; split_ifs <;> rfl
  have hother : ∀ j ∈ tab, j ≠ i → (release i s).desc j = s.desc j := by
    intro j hj hne
    rw [hdesc, if_neg (Nat.ne_of_gt (h.sound.tab_used j hj).1), if_neg hne]
  exact {
    sound := hs
    ret_tab := fun p hp => by
      obtain ⟨j, hj, hjp⟩ := h.ret_tab p hp
      exact ⟨j, hj, (hptr j).trans hjp⟩
    ret_nodup := h.ret_nodup
    live_tab := by
      intro b hb
      simp only [mem_filter, decide_eq_true_eq, ne_eq, some.injEq] at hb
      obtain ⟨j, hj, hjf, hjb, hreq⟩ := h.live_tab b hb.1
      have hne : j ≠ i := by rintro rfl; exact hb.2 hjb
      refine ⟨j, hj, ?_, (hptr j).trans hjb, by rw [hother j hj hne]; exact hreq⟩
      rw [Mem.freeOf, hother j hj hne]
      exact hjf
    tab_live := by
      intro j hj hjf
      have hne : j ≠ i := by
        rintro rfl
        exact hs.free_ne_none mem_cons_self hjf
      rw [Mem.freeOf, hother j hj hne] at hjf
      obtain ⟨b, hb, hbj⟩ := h.tab_live j hj hjf
      refine ⟨b, ?_, hbj.trans (hptr j).symm⟩
      simp only [mem_filter, decide_eq_true_eq, ne_eq, some.injEq]
      refine ⟨hb, fun he => hne ?_⟩
      exact h.sound.separate.base_inj (h.sound.tab_used j hj) hu (hbj.symm.trans he.symm)
    live_nodup := h.live_nodup.sublist ((filter_sublist).map Block.ptr) }

theorem Tracks.bytes (b : Nat → UInt8) : Tracks ret blocks { s with bytes := b } ring tab :=
  h.kept ⟨Nat.le_refl _, fun _ _ => rfl, fun _ _ => Iff.rfl, fun _ _ _ => rfl⟩ (h.sound.bytes b)

end

end

/-! ## One call -/

/-- The call `c` ended, and the longer history describes the new state. -/
def Continues (hist : List Event) (c : Call) (r : Outcome Exc (Option Nat) × Mem) : Prop :=
  r.1 ≠ .stuck
    ∧ ∃ ring tab, Tracks (returned ((c, r.1) :: hist)) (live ((c, r.1) :: hist)) r.2 ring tab

section
variable {s s' : Mem} {hist : List Event} {ring ring' tab : List Nat} {c : Call}

theorem Continues.raise (h : Tracks (returned hist) (live hist) s ring tab) (e : Exc)
    (loc : Coord) : Continues hist c (.raise e loc, s) :=
  ⟨by simp, ring, tab, h⟩

variable {ret : List Nat} {n p : Nat} {blocks : List Block}

/-- What a request may do, as seen by the history. -/
theorem AllocSpec.tracks {m : Nat} (hnm : n ≤ m) (h : Tracks ret blocks s ring tab)
    {r : Outcome Exc Nat × Mem} (hr : AllocSpec s tab m r) :
    (∃ p s' ring' k, r = (.ok p, s') ∧ Kept s s'
        ∧ Tracks (p :: ret) (⟨p, n⟩ :: blocks) s' ring' (k :: tab))
      ∨ ∃ loc s' ring', r = (.raise .memoryFailed loc, s') ∧ Tracks ret blocks s' ring' tab := by
  obtain ⟨hk, ring', hr⟩ := hr
  match r, hk, hr with
  | (.ok p, s'), hk, ⟨k, hnew, hs, hfree, hptr, hsize⟩ =>
    exact Or.inl ⟨p, s', ring', k, rfl, hk, h.alloc hk hnew hs hfree hptr (by omega)⟩
  | (.raise e loc, s'), hk, ⟨he, hs⟩ =>
    subst he
    exact Or.inr ⟨loc, s', ring', rfl, h.kept hk hs⟩

theorem live_of_gives_none (hc : c.gives = none) :
    live ((c, .ok (some p)) :: hist) = ⟨p, c.request⟩ :: live hist := by
  simp [live, hc]

section

variable (M : Malloc) (h : Tracks (returned hist) (live hist) s ring tab)
include M h

theorem exec_alloc (n : Nat) (loc : Coord) (hsmall : Small n) :
    Continues hist (.alloc n loc) (exec M s (.alloc n loc)) := by
  by_cases hn : n = 0
  · subst hn
    exact .raise h _ _
  have hpos := Nat.pos_of_ne_zero hn
  rcases AllocSpec.tracks (roundUp_of_small hsmall hpos).1 h
    (memoryAlloc_spec M loc hpos hsmall h.sound) with
    ⟨p, s', ring', k, hr, -, ht⟩ | ⟨l, s', ring', hr, ht⟩
  · simp only [exec, hr]
    refine ⟨by simp [Outcome.map], ring', k :: tab, ?_⟩
    simp only [Prod.map, Outcome.map, live_of_gives_none (c := .alloc n loc) rfl]
    exact ht
  · simp only [exec, hr]
    exact .raise ht _ _

theorem exec_calloc (count n : Nat) (loc : Coord) (hsmall : Small (count * n)) :
    Continues hist (.calloc count n loc) (exec M s (.calloc count n loc)) := by
  by_cases hcount : count = 0
  · subst hcount
    exact .raise h _ _
  by_cases hn : n = 0
  · subst hn
    simp only [exec, memoryCalloc, memoryCallocIn, hcount, if_false, if_true]
    exact .raise h _ _
  have hpos : 0 < count * n := Nat.mul_pos (Nat.pos_of_ne_zero hcount) (Nat.pos_of_ne_zero hn)
  have hwrap : sizeT (count * n) = count * n := by
    refine sizeT_of_lt ?_
    have := hsmall.1
    unfold alignSize at this
    omega
  simp only [exec, memoryCalloc, memoryCallocIn, hcount, hn, if_false, hwrap]
  rcases AllocSpec.tracks (roundUp_of_small hsmall hpos).1 h
    (memoryAlloc_spec M loc hpos hsmall h.sound) with
    ⟨p, s', ring', k, hr, -, ht⟩ | ⟨l, s', ring', hr, ht⟩ <;> rw [memoryAlloc] at hr
  · simp only [hr]
    refine ⟨by simp [Outcome.map], ring', k :: tab, ?_⟩
    simp only [Prod.map, Outcome.map, live_of_gives_none (c := .calloc count n loc) rfl]
    exact ht.bytes _
  · simp only [hr]
    exact .raise ht _ _

end

/-- `Memory_free` gives back a live block, or raises `Assert_Failed` and
changes nothing. -/
theorem memoryFree_cases (h : Tracks ret blocks s ring tab) (hp : p ≠ 0) (loc : Coord) :
    (p ∈ blocks.map Block.ptr ∧ ∃ s', memoryFree p loc s = (.ok (), s')
        ∧ ∃ ring', Tracks ret (blocks.filter fun b => some p ≠ some b.ptr) s' ring' tab)
      ∨ (p ∉ blocks.map Block.ptr ∧ memoryFree p loc s = (.raise .assertFailed loc, s)) := by
  unfold memoryFree
  rw [if_neg hp]
  rcases owner_cases h.sound p with ⟨i, hi, rfl, hf, ho⟩ | ⟨hn, ho⟩
  · obtain ⟨b, hb, hbi⟩ := h.tab_live i hi hf
    rw [ho]
    exact Or.inl ⟨mem_map.mpr ⟨b, hb, hbi⟩, _, rfl, _, h.free hi hf⟩
  · rw [ho]
    refine Or.inr ⟨fun hmem => ?_, rfl⟩
    obtain ⟨b, hb, rfl⟩ := mem_map.mp hmem
    obtain ⟨i, hi, hf, hib, -⟩ := h.live_tab b hb
    exact hn i hi hib hf

theorem exec_free (M : Malloc) (h : Tracks (returned hist) (live hist) s ring tab) (p : Nat)
    (loc : Coord) : Continues hist (.free p loc) (exec M s (.free p loc)) := by
  by_cases hp : p = 0
  · -- freeing NULL does nothing, and no live block is at NULL
    subst hp
    have hlive : live ((.free 0 loc, .ok none) :: hist) = live hist := by
      refine filter_eq_self.mpr fun b hb => ?_
      obtain ⟨i, hi, -, hib, -⟩ := h.live_tab b hb
      have := h.sound.ptr_pos i (h.sound.tab_used i hi)
      simp only [Call.gives, decide_eq_true_eq, ne_eq, some.injEq]
      omega
    refine ⟨by simp [exec, memoryFree, Outcome.map], ring, tab, ?_⟩
    change Tracks (returned hist) (live ((.free 0 loc, .ok none) :: hist)) s ring tab
    rw [hlive]
    exact h
  rcases memoryFree_cases h hp loc with ⟨-, s', hr, ring', ht⟩ | ⟨-, hr⟩
  · simp only [exec, hr]
    exact ⟨by simp [Outcome.map], ring', tab, ht⟩
  · simp only [exec, hr]
    exact .raise h _ _

/-- `Memory_resize` moves a live block, fails for lack of memory with the
block kept, or raises `Assert_Failed` and changes nothing. -/
theorem memoryResize_cases (M : Malloc) (h : Tracks ret blocks s ring tab) (hp : p ≠ 0) (hn : 0 < n)
    (hsmall : Small n) (loc : Coord) :
    (p ∈ blocks.map Block.ptr ∧ ((∃ q s' ring' k, memoryResize M p n loc s = (.ok q, s')
            ∧ Tracks (q :: ret) (⟨q, n⟩ :: blocks.filter fun b => some p ≠ some b.ptr)
              s' ring' (k :: tab))
          ∨ ∃ l s' ring', memoryResize M p n loc s = (.raise .memoryFailed l, s')
            ∧ Tracks ret blocks s' ring' tab))
      ∨ (p ∉ blocks.map Block.ptr ∧ memoryResize M p n loc s = (.raise .assertFailed loc, s)) := by
  unfold memoryResize memoryResizeIn
  rw [if_neg hp, if_neg (Nat.ne_of_gt hn)]
  rcases owner_cases h.sound p with ⟨i, hi, hip, hf, ho⟩ | ⟨hnone, ho⟩
  · obtain ⟨b, hb, hbi⟩ := h.tab_live i hi hf
    have hmem : p ∈ blocks.map Block.ptr := mem_map.mpr ⟨b, hb, hbi.trans hip⟩
    refine Or.inl ⟨hmem, ?_⟩
    rw [ho]
    rcases AllocSpec.tracks (roundUp_of_small hsmall hn).1 h
      (memoryAlloc_spec M loc hn hsmall h.sound) with
      ⟨q, s1, ring1, k, hr, hk, ht⟩ | ⟨l, s1, ring1, hr, ht⟩ <;> rw [memoryAlloc] at hr
    · -- the old block is still live when it is freed, and it is not the new one
      simp only [hr]
      have hqp : q ≠ p := by
        rintro rfl
        exact (nodup_cons.mp ht.live_nodup).1 hmem
      rcases memoryFree_cases (ht.bytes _) hp loc with ⟨-, s2, hr2, ring2, ht2⟩ | ⟨hbad, -⟩
      · refine Or.inl ⟨q, s2, ring2, k, by rw [Mem.memcpy, hr2], ?_⟩
        rwa [filter_cons_of_pos (by simpa using Ne.symm hqp)] at ht2
      · exact absurd (mem_cons_of_mem _ hmem) hbad
    · simp only [hr]
      exact Or.inr ⟨l, s1, ring1, rfl, ht⟩
  · rw [ho]
    refine Or.inr ⟨fun hmem => ?_, rfl⟩
    obtain ⟨b, hb, rfl⟩ := mem_map.mp hmem
    obtain ⟨i, hi, hf, hib, -⟩ := h.live_tab b hb
    exact hnone i hi hib hf

section

variable (M : Malloc) (h : Tracks (returned hist) (live hist) s ring tab)
include M h

theorem exec_resize (p n : Nat) (loc : Coord) (hsmall : Small n) :
    Continues hist (.resize p n loc) (exec M s (.resize p n loc)) := by
  by_cases hp : p = 0
  · subst hp
    exact .raise h _ _
  by_cases hn : n = 0
  · subst hn
    simp only [exec, memoryResize, memoryResizeIn, hp, if_false, if_true]
    exact .raise h _ _
  rcases memoryResize_cases M h hp (Nat.pos_of_ne_zero hn) hsmall loc with
    ⟨-, ⟨q, s', ring', k, hr, ht⟩ | ⟨l, s', ring', hr, ht⟩⟩ | ⟨-, hr⟩
  · simp only [exec, hr]
    exact ⟨by simp [Outcome.map], ring', k :: tab, ht⟩
  · simp only [exec, hr]
    exact .raise ht _ _
  · simp only [exec, hr]
    exact .raise h _ _

theorem exec_continues (hsmall : Small c.request) : Continues hist c (exec M s c) := by
  cases c with
  | alloc n loc => exact exec_alloc M h n loc hsmall
  | calloc count n loc => exact exec_calloc M h count n loc hsmall
  | resize p n loc => exact exec_resize M h p n loc hsmall
  | free p loc => exact exec_free M h p loc

end

end

/-- After every run the history describes the table, and every call has
ended. -/
theorem run_tracks (M : Malloc) {calls : List Call} (hsmall : ∀ c ∈ calls, Small c.request) :
    (∀ e ∈ (run M calls).1, e.2 ≠ .stuck)
      ∧ ∃ ring tab, Tracks (returned (run M calls).1) (live (run M calls).1) (run M calls).2
          ring tab := by
  induction calls with
  | nil => exact ⟨by simp [run], [], [], Sound.init, by simp [run, returned],
      by simp [run, returned], by simp [run, live], by simp, by simp [run, live]⟩
  | cons c calls ih =>
    obtain ⟨hends, ring, tab, ht⟩ := ih fun d hd => hsmall d (mem_cons_of_mem _ hd)
    obtain ⟨hend, ht'⟩ := exec_continues M ht (hsmall c mem_cons_self)
    exact ⟨forall_mem_cons.mpr ⟨hend, hends⟩, ht'⟩

/-! ## Separation -/

/-- The space of the block at `p`, as its descriptor has it. -/
def Mem.block (s : Mem) (p : Nat) : Option Extent :=
  match find s p with
  | some (some i) => some (s.extent i)
  | _ => none

/-- The descriptors one meets following `free` from `freelist`. -/
inductive OnFreeList (s : Mem) : Nat → Prop where
  | first {i} : s.freeOf 0 = some i → i ≠ 0 → OnFreeList s i
  | next {i j} : OnFreeList s i → s.freeOf i = some j → j ≠ 0 → OnFreeList s j

theorem OnFreeList.mem_ring {s : Mem} {ring tab : List Nat} (h : Sound s ring tab) {i : Nat}
    (hi : OnFreeList s i) : i ∈ ring := by
  induction hi with
  | first hfirst hne =>
    rcases h.ring_path.head_mem hfirst with hmem | heq
    · exact hmem
    · exact absurd (some.inj heq).symm hne
  | next _ hnext hne ih =>
    rcases h.ring_path.next_mem ih hnext with hmem | heq
    · exact hmem
    · exact absurd (some.inj heq).symm hne

/-- What holds of the blocks after a run. -/
structure BlocksSeparate (hist : List Event) (s : Mem) : Prop where
  ends : ∀ e ∈ hist, e.2 ≠ .stuck
  aligned : ∀ p ∈ returned hist, alignSize ∣ p
  /-- No pointer is returned twice. -/
  fresh : (returned hist).Nodup
  inside : ∀ b ∈ live hist, ∃ e, s.block b.ptr = some e ∧ e.base = b.ptr ∧ b.request ≤ e.size
    ∧ ∃ r ∈ s.heap.held, e.Within r
  apart : (live hist).Pairwise fun b b' =>
    ∀ e e', s.block b.ptr = some e → s.block b'.ptr = some e' → e.Apart e'
  /-- No live block overlaps what is left of a descriptor on the free
  list. -/
  spare : ∀ b ∈ live hist, ∀ e, s.block b.ptr = some e → ∀ i, OnFreeList s i → e.Apart (s.extent i)

section
variable {s : Mem} {ret : List Nat} {blocks : List Block} {ring tab : List Nat}

/-- The entry of a live block. -/
theorem Tracks.block (h : Tracks ret blocks s ring tab) {b : Block} (hb : b ∈ blocks) :
    ∃ i, s.block b.ptr = some (s.extent i) ∧ s.Used i ∧ i ∉ ring ∧ (s.desc i).ptr = b.ptr
      ∧ b.request ≤ (s.desc i).size := by
  obtain ⟨i, hi, hf, hptr, hreq⟩ := h.live_tab b hb
  have hu := h.sound.tab_used i hi
  refine ⟨i, ?_, hu, (h.sound.free_eq_none_iff hu).mp hf, hptr, hreq⟩
  rcases find_cases h.sound b.ptr with ⟨j, hj, hjp, hfind⟩ | ⟨hnone, -⟩
  · obtain rfl : j = i := h.sound.separate.base_inj (h.sound.tab_used j hj) hu (hjp.trans hptr.symm)
    rw [Mem.block, hfind]
  · exact absurd hptr (hnone i hi)

theorem Tracks.pairwise_apart (h : Tracks ret blocks s ring tab) : blocks.Pairwise fun b b' =>
      ∀ e e', s.block b.ptr = some e → s.block b'.ptr = some e' → e.Apart e' := by
  have hne : blocks.Pairwise fun b b' => b.ptr ≠ b'.ptr := pairwise_map.mp h.live_nodup
  refine hne.imp_of_mem fun {b b'} hb hb' hbb' e e' he he' => ?_
  obtain ⟨i, hi, hu, -, hib, -⟩ := h.block hb
  obtain ⟨j, hj, hv, -, hjb, -⟩ := h.block hb'
  obtain rfl := some.inj (hi.symm.trans he)
  obtain rfl := some.inj (hj.symm.trans he')
  refine h.sound.separate.apart i j hu hv fun hij => hbb' ?_
  rw [← hib, ← hjb, hij]

end

/-- **Separation.** After every run of calls whose requests do not wrap,
with any `malloc` that hands out fresh regions: every call has ended, every
pointer returned is aligned and new, and the live blocks are as long as
requested, lie inside `malloc`ed regions, and overlap neither each other
nor the space left on the free list. -/
theorem blocks_separate (M : Malloc) {calls : List Call} (hsmall : ∀ c ∈ calls, Small c.request) :
    BlocksSeparate (run M calls).1 (run M calls).2 := by
  obtain ⟨hends, ring, tab, ht⟩ := run_tracks M hsmall
  have hsound := ht.sound
  refine ⟨hends, fun p hp => ?_, ht.ret_nodup, fun b hb => ?_, ht.pairwise_apart,
    fun b hb e he i hi => ?_⟩
  · obtain ⟨i, hi, rfl⟩ := ht.ret_tab p hp
    exact (hsound.aligned i (hsound.tab_used i hi)).1
  · obtain ⟨i, hi, hu, -, hib, hreq⟩ := ht.block hb
    exact ⟨_, hi, hib, hreq, hsound.separate.inside i hu⟩
  · obtain ⟨j, hj, hu, hring, -⟩ := ht.block hb
    obtain rfl := some.inj (hj.symm.trans he)
    have hmem := hi.mem_ring hsound
    exact hsound.separate.apart j i hu (hsound.ring_used i hmem)
      (ne_of_mem_of_not_mem hmem hring).symm

/-- Two blocks allocated, the first freed and its space asked for again. -/
theorem blocks_separate_reuse : BlocksSeparate
      (run .bump [.alloc 10 (here 1), .free 4112 (here 2), .alloc 40 (here 3),
        .alloc 100 (here 4)]).1
      (run .bump [.alloc 10 (here 1), .free 4112 (here 2), .alloc 40 (here 3),
        .alloc 100 (here 4)]).2 :=
  blocks_separate .bump (by decide)

/-! ## Bad frees -/

/-- **Bad frees are detected.** After every run, freeing or resizing a
non-NULL pointer raises `Assert_Failed` exactly when it is not the address
of a live block; for a resize to 0 bytes `Precondition_Failed` comes
first. -/
theorem bad_free_detected (M : Malloc) {calls : List Call}
    (hsmall : ∀ c ∈ calls, Small c.request) {p : Nat} (hp : p ≠ 0) (loc : Coord) :
    ((memoryFree p loc (run M calls).2).1.Raises .assertFailed
        ↔ p ∉ (live (run M calls).1).map Block.ptr)
      ∧ (∀ n, 0 < n → Small n → ((memoryResize M p n loc (run M calls).2).1.Raises .assertFailed
        ↔ p ∉ (live (run M calls).1).map Block.ptr))
      ∧ (memoryResize M p 0 loc (run M calls).2).1.Raises .preconditionFailed := by
  obtain ⟨-, ring, tab, ht⟩ := run_tracks M hsmall
  refine ⟨?_, fun n hn hsm => ?_,
    ⟨here 180, by simp only [memoryResize, memoryResizeIn, hp, if_false, if_true]⟩⟩
  · rcases memoryFree_cases ht hp loc with ⟨hmem, s', hr, -⟩ | ⟨hmem, hr⟩
    · rw [hr]
      exact iff_of_false (fun ⟨l, hl⟩ => by cases hl) (not_not.mpr hmem)
    · rw [hr]
      exact iff_of_true ⟨_, rfl⟩ hmem
  · rcases memoryResize_cases M ht hp hn hsm loc with
      ⟨hmem, ⟨q, s', -, -, hr, -⟩ | ⟨l, s', -, hr, -⟩⟩ | ⟨hmem, hr⟩
    · rw [hr]
      exact iff_of_false (fun ⟨l, hl⟩ => by cases hl) (not_not.mpr hmem)
    · rw [hr]
      exact iff_of_false (fun ⟨l, hl⟩ => by cases hl) (not_not.mpr hmem)
    · rw [hr]
      exact iff_of_true ⟨_, rfl⟩ hmem

/-- A block of 100 bytes is freed, 10 of its bytes are handed out again,
and it is freed once more. -/
theorem bad_free_detected_reuse :
    (memoryFree 4112 (here 5) (run .bump [.alloc 10 (here 4), .free 4112 (here 3),
      .alloc 40 (here 2), .alloc 100 (here 1)]).2).1.Raises .assertFailed :=
  (bad_free_detected .bump (by decide) (by decide) (here 5)).1.mpr (by decide)

/-- Resizing an unknown pointer to 0 bytes is not reported as
`Assert_Failed`. -/
theorem resize_zero_not_assert : Small 0 ∧ 16 ∉ (live (run .bump []).1).map Block.ptr
      ∧ ¬ (memoryResize .bump 16 0 (here 1) (run .bump []).2).1.Raises .assertFailed :=
  ⟨by decide, by decide, fun ⟨_, hl⟩ => by simp [memoryResize, memoryResizeIn] at hl⟩

end MemoryDev

end CLangProject
