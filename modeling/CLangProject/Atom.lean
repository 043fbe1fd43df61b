import CLangProject.Cells
import CLangProject.Extent
import CLangProject.Linked
import CLangProject.Outcome

/-!
# Atoms: `atom.c`

An atom is a string that is stored once. `Atom_new` looks for the bytes in the
bucket that their hash selects, and if they are not there it stores them behind
a new `struct atom`, followed by a 0, at the head of the bucket. The pointer
returned is the address of the stored bytes.

The atoms stored so far are a list of pairs, the address of a `struct atom` and
its bytes, the latest first (`Interned`). No two pairs have the same bytes and
their blocks do not overlap, from which everything else follows: pointers are
equal when bytes are, and nothing written later reaches a stored string
(`atoms_unique`).

A string of the caller is the list of the bytes that can be read from the
pointer on, `none` for NULL. The memory behind it may be shared with other
strings, also with atoms: it is read before anything is written. -/

namespace CLangProject.Atom

open List Option Function

/-! ## The code -/

inductive Exc where
  | preconditionFailed | assertFailed | memoryFailed
deriving Repr, DecidableEq

/-- `__FILE__` and `__LINE__` inside `atom.c`. -/
def here (line : Nat) : Coord := ⟨some "atom.c", line⟩

/-- `struct atom`. -/
structure Rec where
  link : Option Nat
  len : Nat
  str : Nat
deriving Repr, DecidableEq

/-- `sizeof (struct atom)`. -/
def atomSize : Nat := 24

/-- The number of `buckets`. -/
def bucketCount : Nat := 2048

/-- The buckets, the `struct atom`s in memory and the bytes of their strings. -/
structure State where
  buckets : Nat → Option Nat
  atoms : Cells Rec
  chars : Cells UInt8
  heap : CHeap

def State.init (H : CHeap) : State := ⟨fun _ => none, fun _ => none, fun _ => none, H⟩

def scatter : List UInt64 := [2078917053, 143302914, 1027100827, 1953210302, 755253631, 2002600785,
   1405390230, 45248011, 1099951567, 433832350, 2018585307, 438263339,
   813528929, 1703199216, 618906479, 573714703, 766270699, 275680090,
   1510320440, 1583583926, 1723401032, 1965443329, 1098183682, 1636505764,
   980071615, 1011597961, 643279273, 1315461275, 157584038, 1069844923,
   471560540, 89017443, 1213147837, 1498661368, 2042227746, 1968401469,
   1353778505, 1300134328, 2013649480, 306246424, 1733966678, 1884751139,
   744509763, 400011959, 1440466707, 1363416242, 973726663, 59253759,
   1639096332, 336563455, 1642837685, 1215013716, 154523136, 593537720,
   704035832, 1134594751, 1605135681, 1347315106, 302572379, 1762719719,
   269676381, 774132919, 1851737163, 1482824219, 125310639, 1746481261,
   1303742040, 1479089144, 899131941, 1169907872, 1785335569, 485614972,
   907175364, 382361684, 885626931, 200158423, 1745777927, 1859353594,
   259412182, 1237390611, 48433401, 1902249868, 304920680, 202956538,
   348303940, 1008956512, 1337551289, 1953439621, 208787970, 1640123668,
   1568675693, 478464352, 266772940, 1272929208, 1961288571, 392083579,
   871926821, 1117546963, 1871172724, 1771058762, 139971187, 1509024645,
   109190086, 1047146551, 1891386329, 994817018, 1247304975, 1489680608,
   706686964, 1506717157, 579587572, 755120366, 1261483377, 884508252,
   958076904, 1609787317, 1893464764, 148144545, 1415743291, 2102252735,
   1788268214, 836935336, 433233439, 2055041154, 2109864544, 247038362,
   299641085, 834307717, 1364585325, 23330161, 457882831, 1504556512,
   1532354806, 567072918, 404219416, 1276257488, 1561889936, 1651524391,
   618454448, 121093252, 1010757900, 1198042020, 876213618, 124757630,
   2082550272, 1834290522, 1734544947, 1828531389, 1982435068, 1002804590,
   1783300476, 1623219634, 1839739926, 69050267, 1530777140, 1802120822,
   316088629, 1830418225, 488944891, 1680673954, 1853748387, 946827723,
   1037746818, 1238619545, 1513900641, 1441966234, 367393385, 928306929,
   946006977, 985847834, 1049400181, 1956764878, 36406206, 1925613800,
   2081522508, 2118956479, 1612420674, 1668583807, 1800004220, 1447372094,
   523904750, 1435821048, 923108080, 216161028, 1504871315, 306401572,
   2018281851, 1820959944, 2136819798, 359743094, 1354150250, 1843084537,
   1306570817, 244413420, 934220434, 672987810, 1686379655, 1301613820,
   1601294739, 484902984, 139978006, 503211273, 294184214, 176384212,
   281341425, 228223074, 147857043, 1893762099, 1896806882, 1947861263,
   1193650546, 273227984, 1236198663, 2116758626, 489389012, 593586330,
   275676551, 360187215, 267062626, 265012701, 719930310, 1621212876,
   2108097238, 2026501127, 1865626297, 894834024, 552005290, 1404522304,
   48964196, 5816381, 1889425288, 188942202, 509027654, 36125855,
   365326415, 790369079, 264348929, 513183458, 536647531, 13672163,
   313561074, 1730298077, 286900147, 1549759737, 1699573055, 776289160,
   2143346068, 1975249606, 1136476375, 262925046, 92778659, 1856406685,
   1884137923, 53392249, 1735424165, 1602280572]

set_option maxRecDepth 2000 in
theorem length_scatter : scatter.length = 256 := rfl

/-- `scatter` has an entry for every `unsigned char`. -/
def scatterOf (c : UInt8) : UInt64 := scatter.get ⟨c.toNat, length_scatter ▸ c.toNat_lt⟩

def hash (str : List UInt8) : UInt64 := str.foldl (fun h c => (h <<< 1) + scatterOf c) 0

/-- `h &= ARRAY_SIZE(buckets) - 1`. -/
def bucketOf (str : List UInt8) : Nat := (hash str &&& 2047).toNat

/-- The comparison of a stored string, from the address `q` on, with `str`. -/
def same (chars : Cells UInt8) : Nat → List UInt8 → Option Bool
  | _, [] => some true
  | q, c :: str => do if (← chars q) = c then same chars (q + 1) str else some false

/-- The loop of `Atom_new` through a bucket. -/
def findAtom (s : State) (str : List UInt8) : Nat → Option Nat → Option (Option Nat)
  | _, none => some none
  | 0, some _ => none
  | fuel + 1, some p => do
    let A ← s.atoms p
    if str.length = A.len then
      if ← same s.chars A.str str then some (some A.str) else findAtom s str fuel A.link
    else findAtom s str fuel A.link

/-- Write the bytes `str` from the address `q` on. -/
def store (chars : Cells UInt8) : Nat → List UInt8 → Cells UInt8
  | _, [] => chars
  | q, c :: str => update (store chars (q + 1) str) q (some c)

/-- A new atom in the block at `p`. -/
def State.enter (s : State) (str : List UInt8) (p : Nat) (H : CHeap) : State where
  buckets := update s.buckets (bucketOf str) (some p)
  atoms := update s.atoms p (some ⟨s.buckets (bucketOf str), str.length, p + atomSize⟩)
  chars := store s.chars (p + atomSize) (str ++ [0])
  heap := H

/-- `Atom_new`. Every atom is a block held, so the loop through a bucket does
not run out of fuel. -/
def atomNew (M : Malloc) (buffer : Option (List UInt8)) (len : Nat) (s : State) :
    Outcome Exc Nat × State :=
  match buffer with
  | none => (.raise .preconditionFailed (here 68), s)
  | some buffer =>
    if len = 0 then (.raise .preconditionFailed (here 69), s)
    -- the bytes behind the end cannot be read
    else if buffer.length < len then (.stuck, s)
    else
      let str := buffer.take len
      match findAtom s str s.heap.held.length (s.buckets (bucketOf str)) with
      | none => (.stuck, s)
      | some (some q) => (.ok q, s)
      | some none =>
        match M.malloc ((atomSize + len + 1) % 2 ^ 64) s.heap with
        | (none, H) => (.raise .memoryFailed (here 90), { s with heap := H })
        | (some p, H) => (.ok (p + atomSize), s.enter str p H)

/-- The bytes in front of the first 0. -/
def beforeNul (buffer : List UInt8) : List UInt8 := buffer.takeWhile (· ≠ 0)

/-- `Atom_string`; `strlen` needs a 0. -/
def atomString (M : Malloc) (buffer : Option (List UInt8)) (s : State) : Outcome Exc Nat × State :=
  match buffer with
  | none => (.raise .preconditionFailed (here 107), s)
  | some buffer => if 0 ∈ buffer then atomNew M (some buffer) (beforeNul buffer).length s
      else (.stuck, s)

/-- The inner loop of `Atom_length`. -/
def lengthIn (s : State) (q : Nat) : Nat → Option Nat → Option (Option Nat)
  | _, none => some none
  | 0, some _ => none
  | fuel + 1, some p => do
    let A ← s.atoms p
    if A.str = q then some (some A.len) else lengthIn s q fuel A.link

/-- The outer loop, through the buckets given. -/
def lengthFrom (s : State) (q fuel : Nat) : List Nat → Option (Option Nat)
  | [] => some none
  | i :: is => do
    match ← lengthIn s q fuel (s.buckets i) with
    | some len => some (some len)
    | none => lengthFrom s q fuel is

/-- `Assert(0)` when no bucket has the atom. -/
def lengthFound : Option (Option Nat) → Outcome Exc Nat
  | none => .stuck
  | some (some len) => .ok len
  | some none => .raise .assertFailed (here 124)

def atomLength (str : Option Nat) (s : State) : Outcome Exc Nat :=
  match str with
  | none => .raise .preconditionFailed (here 114)
  | some q => lengthFound (lengthFrom s q s.heap.held.length (List.range bucketCount))

/-! ## Runs -/

inductive Call where
  | new (buffer : Option (List UInt8)) (len : Nat)
  | string (buffer : Option (List UInt8))
deriving Repr, DecidableEq

def exec (M : Malloc) (s : State) : Call → Outcome Exc Nat × State
  | .new buffer len => atomNew M buffer len s
  | .string buffer => atomString M buffer s

/-- A call, the state it was made in, how it ended, and the state it left. -/
structure Step where
  before : State
  call : Call
  outcome : Outcome Exc Nat
  after : State

/-- The run of the calls, the latest call first. -/
def run (M : Malloc) (H : CHeap) : List Call → List Step × State
  | [] => ([], .init H)
  | c :: calls =>
    let (steps, s) := run M H calls
    let (o, s') := exec M s c
    (⟨s, c, o, s'⟩ :: steps, s')

/-- The bytes that the call asks for, if they can be read. -/
def Call.bytes : Call → Option (List UInt8)
  | .new (some buffer) len => if len ≤ buffer.length then some (buffer.take len) else none
  | .string (some buffer) => if 0 ∈ buffer then some (beforeNul buffer) else none
  | _ => none

/-- There are bytes, at least one, and they are in memory beside `buckets`. -/
def Call.Valid (c : Call) : Prop :=
  ∃ str, c.bytes = some str ∧ str ≠ [] ∧ str.length + 8 * bucketCount ≤ 2 ^ 64

/-! ## Strings in memory -/

/-- The bytes `str` are stored from the address `q` on. -/
def Stored (chars : Cells UInt8) (q : Nat) (str : List UInt8) : Prop :=
  ∀ i c, str[i]? = some c → chars (q + i) = some c

variable {chars : Cells UInt8} {q : Nat} {str : List UInt8}

theorem Stored.tail {c : UInt8} (h : Stored chars q (c :: str)) : Stored chars (q + 1) str :=
  fun i d hd => by
  rw [Nat.add_assoc, Nat.add_comm 1]
  exact h (i + 1) d (by simpa using hd)

theorem Stored.congr {chars' : Cells UInt8} (h : Stored chars q str)
    (heq : ∀ a, q ≤ a → a < q + str.length → chars' a = chars a) : Stored chars' q str :=
  fun i c hc => by
  have hi := (List.getElem?_eq_some_iff.1 hc).1
  rw [heq (q + i) (Nat.le_add_right ..) (by omega)]
  exact h i c hc

theorem same_eq {bytes rest : List UInt8} (h : Stored chars q (bytes ++ rest))
    (hlen : str.length = bytes.length) :
    same chars q str = some (decide (bytes = str)) := by
  induction str generalizing q bytes with
  | nil => simp [same, length_eq_zero_iff.1 hlen.symm]
  | cons c str ih =>
    obtain ⟨b, bytes, rfl⟩ := exists_cons_of_length_eq_add_one hlen.symm
    have hb : chars q = some b := h 0 b rfl
    by_cases hbc : b = c
    · simp [same, hb, hbc, ih h.tail (by simpa using hlen)]
    · simp [same, hb, hbc]

theorem store_of_notMem {a : Nat} (h : a < q ∨ q + str.length ≤ a) :
    store chars q str a = chars a := by
  induction str generalizing q with
  | nil => rfl
  | cons c str ih =>
    simp only [length_cons] at h
    rw [store, update_of_ne (by omega), ih (by omega)]

theorem stored_store : Stored (store chars q str) q str := by
  induction str generalizing q with
  | nil => exact fun i c hc => by simp at hc
  | cons d str ih =>
    intro i c hc
    cases i with
    | zero => simpa [store] using hc
    | succ i =>
      rw [store, update_of_ne (by omega), Nat.add_comm i, ← Nat.add_assoc]
      exact ih i c (by simpa using hc)

/-! ## The atoms stored -/

/-- An atom: the address of its `struct atom` and its bytes. -/
abbrev Entry := Nat × List UInt8

/-- The block of an atom: the `struct atom`, the bytes and the 0. -/
def Entry.block (e : Entry) : Extent := ⟨e.1, atomSize + e.2.length + 1⟩

/-- The pointer that `Atom_new` returns. -/
def Entry.ptr (e : Entry) : Nat := e.1 + atomSize

/-- The atoms in the bucket `h`. -/
def inBucket (dict : List Entry) (h : Nat) : List Entry := dict.filter fun e => bucketOf e.2 = h

/-- Exactly the atoms `dict` are stored, the latest first. -/
structure Interned (s : State) (dict : List Entry) : Prop where
  chain : ∀ h, Path (s.atoms.link Rec.link) (s.buckets h) ((inBucket dict h).map Prod.fst) none
  atom : ∀ e ∈ dict, ∃ link, s.atoms e.1 = some ⟨link, e.2.length, e.ptr⟩
  chars : ∀ e ∈ dict, Stored s.chars e.ptr (e.2 ++ [0])
  held : ∀ e ∈ dict, e.block ∈ s.heap.held
  nodup : (dict.map Prod.snd).Nodup
  apart : dict.Pairwise fun e e' => e.block.Apart e'.block

variable {s : State} {dict : List Entry}

theorem interned_init (H : CHeap) : Interned (.init H) [] := by
  constructor <;> simp [State.init, inBucket, Path]

variable {e e' : Entry} {fuel : Nat} {p : Option Nat} {es : List Entry} {H : CHeap}

theorem block_ne_of_apart (h : e.block.Apart e'.block) : e.1 ≠ e'.1 := by
  unfold Extent.Apart Entry.block at h
  simp only at h
  omega

theorem Interned.nodup_fst (h : Interned s dict) : (dict.map Prod.fst).Nodup :=
  pairwise_map.2 (h.apart.imp block_ne_of_apart)

/-- Every atom is a block of its own. -/
theorem Interned.length_le (h : Interned s dict) : dict.length ≤ s.heap.held.length := by
  have hsub : dict.map Prod.fst ⊆ s.heap.held.map Extent.base := fun b hb => by
    obtain ⟨e, he, rfl⟩ := mem_map.1 hb
    exact mem_map.2 ⟨Entry.block e, h.held e he, rfl⟩
  simpa using (h.nodup_fst.subperm hsub).length_le

theorem length_inBucket_le (dict : List Entry) (h : Nat) : (inBucket dict h).length ≤ dict.length :=
  length_filter_le ..

section

variable (h : Interned s dict)
include h

/-- The loop through a bucket, or through a part of it. -/
theorem Interned.findAtom_eq (hes : ∀ e ∈ es, e ∈ dict)
    (hpath : Path (s.atoms.link Rec.link) p (es.map Prod.fst) none) (hfuel : es.length ≤ fuel) :
    findAtom s str fuel p = some ((es.find? fun e => e.2 = str).map Entry.ptr) := by
  induction es generalizing p fuel with
  | nil =>
    obtain rfl : p = none := hpath
    cases fuel <;> rfl
  | cons e es ih =>
    obtain ⟨rfl, hpath⟩ := hpath
    obtain ⟨he, hes⟩ := forall_mem_cons.1 hes
    obtain ⟨fuel, rfl⟩ := Nat.exists_eq_add_one_of_ne_zero (Nat.ne_zero_of_lt hfuel)
    obtain ⟨link, hA⟩ := h.atom e he
    rw [Cells.link_of_eq hA] at hpath
    have ih := ih hes hpath (Nat.le_of_succ_le_succ hfuel)
    by_cases hlen : str.length = e.2.length
    · have hsame := same_eq (h.chars e he) hlen
      by_cases heq : e.2 = str
      · simp [findAtom, hA, hsame, heq]
      · simp [findAtom, hA, hlen, hsame, heq, ih]
    · have heq : e.2 ≠ str := fun heq => hlen (by rw [heq])
      simp [findAtom, hA, hlen, heq, ih]

/-- `Atom_new` finds the bytes exactly if they are stored. -/
theorem Interned.findAtom_bucket (str : List UInt8) : (∃ e ∈ dict, e.2 = str ∧
      findAtom s str s.heap.held.length (s.buckets (bucketOf str)) = some (some e.ptr)) ∨
    (∀ e ∈ dict, e.2 ≠ str) ∧ findAtom s str s.heap.held.length (s.buckets (bucketOf str)) =
    some none := by
  have hfind : findAtom s str s.heap.held.length (s.buckets (bucketOf str)) =
      some (((inBucket dict (bucketOf str)).find? fun e => e.2 = str).map Entry.ptr) :=
    h.findAtom_eq (fun e he => (mem_filter.1 he).1) (h.chain (bucketOf str))
      ((length_inBucket_le dict _).trans h.length_le)
  rw [hfind]
  cases hes : (inBucket dict (bucketOf str)).find? fun e => e.2 = str with
  | some e =>
    have he : e.2 = str := by simpa using List.find?_some hes
    exact .inl ⟨e, (mem_filter.1 (mem_of_find?_eq_some hes)).1, he, rfl⟩
  | none =>
    refine .inr ⟨fun e he heq => ?_, rfl⟩
    have hmem : e ∈ inBucket dict (bucketOf str) := mem_filter.2 ⟨he, by simp [heq]⟩
    simpa [heq] using List.find?_eq_none.1 hes e hmem

/-- An atom is added in a block that is apart from all that are held. -/
theorem Interned.enter (hnew : ∀ e ∈ dict, e.2 ≠ str) {p : Nat}
    (hap : ∀ r ∈ s.heap.held, (Entry.block (p, str)).Apart r)
    (hheld : H.held = Entry.block (p, str) :: s.heap.held) :
    Interned (s.enter str p H) ((p, str) :: dict) := by
  have hapart : ∀ e ∈ dict, (Entry.block (p, str)).Apart e.block := fun e he => hap _ (h.held e he)
  have hne : ∀ e ∈ dict, e.1 ≠ p := fun e he => (block_ne_of_apart (hapart e he)).symm
  have hlink : ∀ i, i ≠ p → (s.enter str p H).atoms.link Rec.link i = s.atoms.link Rec.link i :=
    fun i hi => by
    rw [State.enter, Cells.link_update, update_of_ne hi]
  have hold : ∀ b, ∀ i ∈ (inBucket dict b).map Prod.fst,
      (s.enter str p H).atoms.link Rec.link i = s.atoms.link Rec.link i := fun b i hi => by
    obtain ⟨e, he, rfl⟩ := mem_map.1 hi
    exact hlink e.1 (hne e (mem_filter.1 he).1)
  constructor
  case chain =>
    intro b
    by_cases hb : bucketOf str = b
    · subst hb
      have hcons : inBucket ((p, str) :: dict) (bucketOf str) = (p, str) :: inBucket dict
          (bucketOf str) := by
        simp [inBucket]
      have hp : (s.enter str p H).atoms.link Rec.link p = s.buckets (bucketOf str) := by
        rw [State.enter, Cells.link_update, update_self, bind_some]
      rw [hcons]
      exact ⟨update_self .., hp ▸ (h.chain (bucketOf str)).congr (hold _)⟩
    · have hskip : inBucket ((p, str) :: dict) b = inBucket dict b := by simp [inBucket, hb]
      rw [hskip]
      have hbucket : (s.enter str p H).buckets b = s.buckets b := update_of_ne (Ne.symm hb) ..
      exact hbucket ▸ (h.chain b).congr (hold b)
  case atom =>
    intro e he
    rcases mem_cons.1 he with rfl | he
    · exact ⟨s.buckets (bucketOf str), update_self ..⟩
    · obtain ⟨link, hA⟩ := h.atom e he
      exact ⟨link, (update_of_ne (hne e he) ..).trans hA⟩
  case chars =>
    intro e he
    rcases mem_cons.1 he with rfl | he
    · exact stored_store
    · refine (h.chars e he).congr fun a hle hlt => store_of_notMem ?_
      have := hapart e he
      unfold Extent.Apart Entry.block at this
      simp only [Entry.ptr, length_append, length_singleton] at *
      omega
  case held =>
    intro e he
    rw [State.enter, hheld]
    rcases mem_cons.1 he with rfl | he
    · exact mem_cons_self
    · exact mem_cons_of_mem _ (h.held e he)
  case nodup =>
    refine nodup_cons.2 ⟨fun hmem => ?_, h.nodup⟩
    obtain ⟨e, he, heq⟩ := mem_map.1 hmem
    exact hnew e he heq
  case apart => exact pairwise_cons.2 ⟨hapart, h.apart⟩

theorem Interned.of_heap (hheld : H.held = s.heap.held) : Interned { s with heap := H } dict :=
  ⟨h.chain, h.atom, h.chars, fun e he => by rw [hheld]; exact h.held e he, h.nodup, h.apart⟩

end

/-- How a call for the bytes `str` ends: with the pointer to the atom, or with
an exception because there is no memory for a new one. -/
def Answers (M : Malloc) (s : State) (str : List UInt8) (o : Outcome Exc Nat)
    (dict : List Entry) : Prop :=
  (∃ e ∈ dict, e.2 = str ∧ o = .ok e.ptr) ∨
    (M.malloc (atomSize + str.length + 1) s.heap).1 = none ∧ o.Raises .memoryFailed

/-- One call: the atoms stored stay, and at most one is added. -/
theorem Interned.atomNew (h : Interned s dict) (M : Malloc) {buffer : List UInt8} {len : Nat}
    (hlen : len ≤ buffer.length) (hne : buffer.take len ≠ [])
    (hfit : (buffer.take len).length + 8 * bucketCount ≤ 2 ^ 64) :
    ∃ dict', Interned (atomNew M (some buffer) len s).2 dict' ∧ (∀ e ∈ dict, e ∈ dict') ∧
      Answers M s (buffer.take len) (Atom.atomNew M (some buffer) len s).1 dict' := by
  have hpos : len ≠ 0 := fun h0 => hne (by simp [h0])
  have hlength : (buffer.take len).length = len := length_take_of_le hlen
  generalize hstr : buffer.take len = str at *
  have hsize : (atomSize + len + 1) % 2 ^ 64 = atomSize + str.length + 1 := by
    rw [Nat.mod_eq_of_lt, hlength]
    simp only [atomSize, bucketCount] at *
    omega
  unfold Atom.atomNew
  simp only [if_neg hpos, if_neg (Nat.not_lt.2 hlen), hstr, hsize]
  rcases h.findAtom_bucket str with ⟨e, he, heq, hfind⟩ | ⟨hnew, hfind⟩
  · rw [hfind]
    exact ⟨dict, h, fun _ => id, .inl ⟨e, he, heq, rfl⟩⟩
  rw [hfind]
  rcases M.malloc_cases (atomSize + str.length + 1) s.heap with ⟨p, hp, -, -, -, hap⟩ | hp
  · rw [hp]
    exact ⟨(p, str) :: dict, h.enter hnew hap rfl, fun e he => mem_cons_of_mem _ he,
      .inl ⟨(p, str), mem_cons_self, rfl, rfl⟩⟩
  · refine ⟨dict, ?_, fun _ => id, .inr ⟨by rw [hp], here 90, by rw [hp]⟩⟩
    rw [hp]
    exact h.of_heap rfl

theorem beforeNul_isPrefix (buffer : List UInt8) : beforeNul buffer <+: buffer := takeWhile_prefix _

theorem take_length_beforeNul (buffer : List UInt8) :
    buffer.take (beforeNul buffer).length = beforeNul buffer :=
  (prefix_iff_eq_take.1 (beforeNul_isPrefix buffer)).symm

section

variable (h : Interned s dict)
include h

theorem Interned.exec (M : Malloc) {c : Call} (hc : c.bytes = some str) (hne : str ≠ [])
    (hfit : str.length + 8 * bucketCount ≤ 2 ^ 64) :
    ∃ dict', Interned (exec M s c).2 dict' ∧ (∀ e ∈ dict, e ∈ dict') ∧
      Answers M s str (Atom.exec M s c).1 dict' := by
  match c with
  | .new none len => simp [Call.bytes] at hc
  | .string none => simp [Call.bytes] at hc
  | .new (some buffer) len =>
    simp only [Call.bytes, ite_none_right_eq_some, some.injEq] at hc
    obtain ⟨hlen, rfl⟩ := hc
    exact h.atomNew M hlen hne hfit
  | .string (some buffer) =>
    simp only [Call.bytes, ite_none_right_eq_some, some.injEq] at hc
    obtain ⟨h0, rfl⟩ := hc
    simp only [Atom.exec, atomString, if_pos h0]
    rw [← take_length_beforeNul buffer] at hne hfit
    have := h.atomNew M (beforeNul_isPrefix buffer).length_le hne hfit
    rwa [take_length_beforeNul] at this

/-! ## `Atom_length` -/

theorem Interned.lengthIn_eq (hes : ∀ e ∈ es, e ∈ dict)
    (hpath : Path (s.atoms.link Rec.link) p (es.map Prod.fst) none) (hfuel : es.length ≤ fuel) :
    lengthIn s q fuel p = some ((es.find? fun e => e.ptr = q).map fun e => e.2.length) := by
  induction es generalizing p fuel with
  | nil =>
    obtain rfl : p = none := hpath
    cases fuel <;> rfl
  | cons e es ih =>
    obtain ⟨rfl, hpath⟩ := hpath
    obtain ⟨he, hes⟩ := forall_mem_cons.1 hes
    obtain ⟨fuel, rfl⟩ := Nat.exists_eq_add_one_of_ne_zero (Nat.ne_zero_of_lt hfuel)
    obtain ⟨link, hA⟩ := h.atom e he
    rw [Cells.link_of_eq hA] at hpath
    have ih := ih hes hpath (Nat.le_of_succ_le_succ hfuel)
    by_cases hq : e.ptr = q <;> simp [lengthIn, hA, hq, ih]

/-- Atoms at one address are one. -/
theorem Interned.eq_of_ptr (he : e ∈ dict) (he' : e' ∈ dict) (hptr : e.ptr = e'.ptr) : e = e' :=
  inj_on_of_nodup_map h.nodup_fst he he' (Nat.add_right_cancel hptr)

theorem Interned.eq_of_bytes (he : e ∈ dict) (he' : e' ∈ dict) (hbytes : e.2 = e'.2) : e = e' :=
  inj_on_of_nodup_map h.nodup he he' hbytes

theorem Interned.lengthFrom_eq (he : e ∈ dict) {is : List Nat} (hmem : bucketOf e.2 ∈ is) :
    lengthFrom s e.ptr s.heap.held.length is = some (some e.2.length) := by
  induction is with
  | nil => cases hmem
  | cons i is ih =>
    have hin : lengthIn s e.ptr s.heap.held.length (s.buckets i) =
        some (((inBucket dict i).find? fun e' => e'.ptr = e.ptr).map fun e' => e'.2.length) :=
      h.lengthIn_eq (fun e he => (mem_filter.1 he).1) (h.chain i)
        ((length_inBucket_le dict i).trans h.length_le)
    rw [lengthFrom, hin]
    cases hfind : (inBucket dict i).find? fun e' => e'.ptr = e.ptr with
    | some e' =>
      have hptr : e'.ptr = e.ptr := by simpa using List.find?_some hfind
      have hmem' := (mem_filter.1 (mem_of_find?_eq_some hfind)).1
      rw [h.eq_of_ptr hmem' he hptr]
      rfl
    | none =>
      have hi : bucketOf e.2 ≠ i := fun hi => by
        have := List.find?_eq_none.1 hfind e (mem_filter.2 ⟨he, by simp [hi]⟩)
        simp at this
      exact ih ((mem_cons.1 hmem).resolve_left hi)

end

theorem bucketOf_lt (str : List UInt8) : bucketOf str < bucketCount := by
  rw [bucketOf, UInt64.toNat_and]
  exact Nat.lt_succ_of_le Nat.and_le_right

theorem Interned.atomLength_eq (h : Interned s dict) (he : e ∈ dict) :
    atomLength (some e.ptr) s = .ok e.2.length := by
  have hmem : bucketOf e.2 ∈ List.range bucketCount := mem_range.2 (bucketOf_lt e.2)
  rw [atomLength, h.lengthFrom_eq he hmem, lengthFound]

/-! ## Whole runs -/

theorem run_interned (M : Malloc) (H : CHeap) {calls : List Call} (hvalid : ∀ c ∈ calls, c.Valid) :
    ∃ dict, Interned (run M H calls).2 dict ∧
      ∀ x ∈ (run M H calls).1, ∃ str, x.call.bytes = some str ∧
      Answers M x.before str x.outcome dict := by
  induction calls with
  | nil => exact ⟨[], interned_init H, nofun⟩
  | cons c calls ih =>
    obtain ⟨⟨str, hstr, hne, hfit⟩, hvalid⟩ := forall_mem_cons.1 hvalid
    obtain ⟨dict, h, hsteps⟩ := ih hvalid
    obtain ⟨dict', h', hsub, hans⟩ := h.exec M hstr hne hfit
    refine ⟨dict', h', fun x hx => ?_⟩
    rcases mem_cons.1 hx with rfl | hx
    · exact ⟨str, hstr, hans⟩
    · obtain ⟨str', hstr', hans'⟩ := hsteps x hx
      exact ⟨str', hstr', hans'.imp_left fun ⟨e, he, heq⟩ => ⟨e, hsub e he, heq⟩⟩

/-- **Atoms are unique.** Every call returns a pointer, unless there is no
memory. Two pointers are equal if and only if the calls asked for the same
bytes. A string once stored is the bytes of the call and a 0 ever after, and
`Atom_length` is the number of the bytes. -/
theorem atoms_unique (M : Malloc) (H : CHeap) {calls : List Call} (hvalid : ∀ c ∈ calls, c.Valid) :
    (∀ x ∈ (run M H calls).1, ∃ str, x.call.bytes = some str ∧ ((∃ q, x.outcome = .ok q) ∨
      (M.malloc (atomSize + str.length + 1) x.before.heap).1 = none ∧
      x.outcome.Raises .memoryFailed)) ∧
    (∀ x ∈ (run M H calls).1, ∀ y ∈ (run M H calls).1, ∀ q r, x.outcome = .ok q →
        y.outcome = .ok r →
      (q = r ↔ x.call.bytes = y.call.bytes)) ∧
    ∀ x ∈ (run M H calls).1, ∀ q str, x.outcome = .ok q → x.call.bytes = some str →
      Stored (run M H calls).2.chars q (str ++ [0]) ∧ atomLength (some q) (run M H calls).2 =
        .ok str.length := by
  obtain ⟨dict, h, hsteps⟩ := run_interned M H hvalid
  have hret : ∀ x ∈ (run M H calls).1, ∀ q, x.outcome = .ok q →
      ∃ e ∈ dict, x.call.bytes = some e.2 ∧ q = e.ptr := by
    intro x hx q hq
    obtain ⟨str, hstr, ⟨e, he, rfl, ho⟩ | ⟨-, loc, ho⟩⟩ := hsteps x hx
    · exact ⟨e, he, hstr, by simpa [hq] using ho⟩
    · simp [hq] at ho
  refine ⟨fun x hx => ?_, fun x hx y hy q r hq hr => ?_, fun x hx q str hq hstr => ?_⟩
  · obtain ⟨str, hstr, hans⟩ := hsteps x hx
    exact ⟨str, hstr, hans.imp_left fun ⟨e, _, _, ho⟩ => ⟨e.ptr, ho⟩⟩
  · obtain ⟨e, he, hx, rfl⟩ := hret x hx q hq
    obtain ⟨e', he', hy, rfl⟩ := hret y hy r hr
    rw [hx, hy, some_inj]
    exact ⟨fun hptr => by rw [h.eq_of_ptr he he' hptr], fun hb => by rw [h.eq_of_bytes he he' hb]⟩
  · obtain ⟨e, he, hx, rfl⟩ := hret x hx q hq
    obtain rfl := some.inj (hx.symm.trans hstr)
    exact ⟨h.chars e he, h.atomLength_eq he⟩

/-- Three calls for the bytes of `ab`, each from another buffer, and one for
bytes with a 0 inside. -/
def fourCalls : List Call :=
  [.new (some [97, 98]) 2, .new (some [97, 0, 98]) 3, .string (some [97, 98, 0]),
    .new (some [97, 98, 99]) 2]

theorem atoms_unique_fourCalls : (∀ c ∈ fourCalls, c.Valid) ∧
    ∀ x ∈ (run .bump .init fourCalls).1, ∀ y ∈ (run .bump .init fourCalls).1, ∀ q r,
      x.outcome = .ok q → y.outcome = .ok r → (q = r ↔ x.call.bytes = y.call.bytes) := by
  have hvalid : ∀ c ∈ fourCalls, c.Valid := by
    intro c hc
    simp only [fourCalls, mem_cons, not_mem_nil, or_false] at hc
    rcases hc with rfl | rfl | rfl | rfl
    · exact ⟨[97, 98], rfl, by decide, by decide⟩
    · exact ⟨[97, 0, 98], rfl, by decide, by decide⟩
    · exact ⟨[97, 98], rfl, by decide, by decide⟩
    · exact ⟨[97, 98], rfl, by decide, by decide⟩
  exact ⟨hvalid, (atoms_unique .bump .init hvalid).2.1⟩

end CLangProject.Atom
