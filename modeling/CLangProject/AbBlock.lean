import CLangProject.AbTree

/-!
# (2,4)-trees: the entries of one node

The entries of a node are its first `degree` pairs of a key and a pointer. For
every loop over the arrays of a node this module states what it does to the
list of entries.
-/

namespace CLangProject.AbTree

open List Option Function

variable {κ ν ο α : Type}

variable {i : Nat} {a : Nat → α}

theorem read_eq (h : i < B) : read a i = some (a i) := if_pos h

theorem write_eq {x : α} (h : i < B) : write a i x = some (update a i x) := if_pos h

namespace Block

variable {t src new : Block κ ν} {i j n : Nat} {k : κ} {p : ν}

def entry (t : Block κ ν) (i : Nat) : κ × ν := (t.key i, t.next i)

def entries (t : Block κ ν) : List (κ × ν) := (List.range t.degree).map t.entry

@[simp] theorem length_entries : t.entries.length = t.degree := by simp [entries]

theorem entries_getElem? (h : i < t.degree) : t.entries[i]? = some (t.entry i) := by
  simp [entries, h]

theorem drop_entries (h : i < t.degree) :
    t.entries.drop i = t.entry i :: t.entries.drop (i + 1) := by
  rw [drop_eq_getElem_cons (by simpa using h)]
  simp [entries]

theorem entries_cons (h : 0 < t.degree) : t.entries = (t.key 0, t.next 0) :: t.entries.drop 1 :=
  drop_entries h

theorem entries_split (h : i < t.degree) :
    t.entries = t.entries.take i ++ t.entry i :: t.entries.drop (i + 1) := by
  rw [← drop_entries h, take_append_drop]

theorem map_range_update (f : Nat → α) (x : α) (n i : Nat) :
    (List.range n).map (update f i x) = ((List.range n).map f).set i x := by
  refine ext_getElem (by simp) fun m h1 h2 => ?_
  simp only [getElem_map, getElem_range, getElem_set, update_apply]
  exact if_congr eq_comm rfl rfl

/-! ## Assignments -/

/-- Both fields of entry `i`. -/
def assign (t : Block κ ν) (i : Nat) (e : κ × ν) : Block κ ν :=
  { t with key := update t.key i e.1, next := update t.next i e.2 }

variable {e : κ × ν} {rest : Nat}

@[simp] theorem degree_assign : (t.assign i e).degree = t.degree := rfl

@[simp] theorem height_assign : (t.assign i e).height = t.height := rfl

theorem entry_assign : (t.assign i e).entry = update t.entry i e := by
  funext j
  by_cases h : j = i <;> simp [entry, assign, h]

theorem entries_assign : (t.assign i e).entries = t.entries.set i e := by
  rw [entries, entries, entry_assign, map_range_update, degree_assign]

theorem key_assign_ne (h : j ≠ i) : (t.assign i e).key j = t.key j := by
  simp [assign, h]

theorem put_eq (h : i < B) : t.put i k p = some (t.assign i (k, p)) := by
  simp [put, setKey, setNext, write_eq h, assign]

theorem setNext_eq (h : i < B) : t.setNext i p = some (t.assign i (t.key i, p)) := by
  simp [setNext, write_eq h, assign]

theorem copy_eq (hj : j < B) (hi : i < B) : t.copy j src i = some (t.assign j (src.entry i)) := by
  simp [copy, read_eq hi, put_eq hj, entry]

/-! ## Loops over one node -/

theorem copyEntries_ok (h : i + rest ≤ B) : ∃ t', copyEntries src rest i t = some t' ∧
    ∀ j, t'.entry j = if i ≤ j ∧ j < i + rest then src.entry j else t.entry j := by
  induction rest generalizing i t with
  | zero => exact ⟨t, rfl, fun j => by rw [if_neg (by omega)]⟩
  | succ rest ih =>
    obtain ⟨t', ht', he⟩ := ih (t := t.assign i (src.entry i)) (i := i + 1) (by omega)
    refine ⟨t', ?_, fun j => ?_⟩
    · simpa [copyEntries, copy_eq (show i < B by omega) (show i < B by omega)] using ht'
    · rw [he, entry_assign, update_apply]
      split_ifs <;> first | rfl | omega | subst_vars; rfl

theorem copyEntries_entries (h : src.degree ≤ B) : ∃ t', copyEntries src src.degree 0 t = some t' ∧
      (List.range src.degree).map t'.entry = src.entries := by
  obtain ⟨t', ht', he⟩ := copyEntries_ok (t := t) (show 0 + src.degree ≤ B by omega)
  refine ⟨t', ht', map_congr_left fun j hj => ?_⟩
  rw [he, if_pos ⟨Nat.zero_le j, by simpa using hj⟩]

theorem closeGap_ok (h : i + rest < B) : ∃ t', closeGap rest i t = some t' ∧
    t'.degree = t.degree ∧ t'.height = t.height ∧
      ∀ j, t'.entry j = if i ≤ j ∧ j < i + rest then t.entry (j + 1) else t.entry j := by
  induction rest generalizing i t with
  | zero => exact ⟨t, rfl, rfl, rfl, fun j => by rw [if_neg (by omega)]⟩
  | succ rest ih =>
    obtain ⟨t', ht', hd, hh, he⟩ := ih (t := t.assign i (t.entry (i + 1))) (i := i + 1) (by omega)
    refine ⟨t', ?_, hd, hh, fun j => ?_⟩
    · simpa [closeGap, copy_eq (show i < B by omega) (show i + 1 < B by omega)] using ht'
    · rw [he, entry_assign, update_apply, update_apply]
      split_ifs <;> first | rfl | omega | subst_vars; rfl

theorem removeAt_ok (hi : i < t.degree) (hd : t.degree ≤ B) : ∃ t', t.removeAt i = some t' ∧
    t'.height = t.height ∧ t'.degree = t.degree - 1 ∧
      t'.entries = t.entries.take i ++ t.entries.drop (i + 1) := by
  obtain ⟨t', ht', hd', hh, he⟩ := closeGap_ok (t := { t with degree := t.degree - 1 }) (i := i)
      (show i + (t.degree - 1 - i) < B by omega)
  refine ⟨t', ht', hh, hd', ?_⟩
  rw [← eraseIdx_eq_take_drop_succ]
  refine ext_getElem (by simp [hd', length_eraseIdx, hi]) fun m h1 h2 => ?_
  have hm : m < t.degree - 1 := by simpa [hd'] using h1
  simp only [entries, getElem_map, getElem_range, he, getElem_eraseIdx]
  split_ifs <;> first | rfl | omega

section Order

variable [LinearOrder κ]

theorem narrow_ok (key : Nat → κ) (q : κ) (rounds : Nat) {l u : Nat} (hlu : l < u) (hu : u ≤ B)
    (hr : u ≤ rounds + l) : ∃ i, narrow key q rounds l u = some i ∧ l ≤ i ∧ i < u ∧
      (i = l ∨ key i ≤ q) ∧ (i + 1 = u ∨ q < key (i + 1)) := by
  induction rounds generalizing l u with
  | zero => omega
  | succ rounds ih =>
    by_cases hgo : u > l + 1
    · have hread : read key ((u + l) / 2) = some (key ((u + l) / 2)) := read_eq (by omega)
      by_cases hq : q < key ((u + l) / 2)
      · obtain ⟨i, hi, hl, hu', hlow, hup⟩ :=
          ih (l := l) (u := (u + l) / 2) (by omega) (by omega) (by omega)
        refine ⟨i, by simp [narrow, hgo, hread, hq, hi], hl, by omega, hlow, .inr ?_⟩
        rcases hup with hup | hup
        · rwa [hup]
        · exact hup
      · obtain ⟨i, hi, hl, hu', hlow, hup⟩ :=
          ih (l := (u + l) / 2) (u := u) (by omega) (by omega) (by omega)
        refine ⟨i, by simp [narrow, hgo, hread, hq, hi], by omega, hu', .inr ?_, hup⟩
        rcases hlow with rfl | hlow
        · exact not_lt.1 hq
        · exact hlow
    · exact ⟨l, by simp [narrow, hgo], le_rfl, hlu, .inl rfl, .inl (by omega)⟩

/-- The binary search ends at the last entry whose separator is not above `q`. -/
theorem lower_ok (q : κ) (h : 0 < t.degree) (hd : t.degree ≤ B) : ∃ i, t.lower q = some i ∧
    i < t.degree ∧ (i = 0 ∨ t.key i ≤ q) ∧ (i + 1 = t.degree ∨ q < t.key (i + 1)) := by
  obtain ⟨i, hi, -, hlt, hlow, hup⟩ := narrow_ok t.key q t.degree h hd (by omega)
  exact ⟨i, hi, hlt, hlow, hup⟩

theorem position_ok {rest : Nat} (h : i + rest ≤ B) : ∃ m, t.position k rest i = some m ∧
    i ≤ m ∧ m ≤ i + rest ∧ (m < i + rest → t.key m = k) ∧ ∀ j, i ≤ j → j < m → t.key j ≠ k := by
  induction rest generalizing i with
  | zero => exact ⟨i, rfl, le_rfl, le_rfl, fun h => by omega, fun j h1 h2 => by omega⟩
  | succ rest ih =>
    by_cases hk : t.key i = k
    · exact ⟨i, by simp [position, read_eq (show i < B by omega), hk], le_rfl, by omega,
        fun _ => hk, fun j h1 h2 => by omega⟩
    · obtain ⟨m, hm, h1, h2, h3, h4⟩ := ih (i := i + 1) (by omega)
      refine ⟨m, by simp [position, read_eq (show i < B by omega), hk, hm], by omega, by omega,
        fun hlt => h3 (by omega), fun j hj hjm => ?_⟩
      rcases Nat.eq_or_lt_of_le hj with rfl | hj
      · exact hk
      · exact h4 j hj hjm

/-! ## Insertion -/

/-- Entry `i` is where `insert` puts the key `k`: behind every key that is not
above it, and not before `start`. -/
structure Gap (t : Block κ ν) (k : κ) (i : Nat) : Prop where
  start_le : t.start ≤ i
  le_degree : i ≤ t.degree
  before : i = t.start ∨ t.key (i - 1) ≤ k
  after : ∀ j, i ≤ j → j < t.degree → k < t.key j

theorem Gap.unique (h : t.Gap k i) (h' : t.Gap k j) : i = j := by
  have hle : ∀ {i j}, t.Gap k i → t.Gap k j → i ≤ j := fun {i j} h h' => by
    by_contra hlt
    rcases h.before with hs | hk
    · have := h'.start_le
      omega
    · have hle := h.le_degree
      exact absurd (h'.after (i - 1) (by omega) (by omega)) (not_lt.2 hk)
  exact le_antisymm (hle h h') (hle h' h)

variable {s : Nat}

theorem makeGap_ok (hn : n < B) (hs : s ≤ n) : ∃ i t', makeGap s k n t = some (i, t') ∧
    t'.degree = t.degree ∧ t'.height = t.height ∧ s ≤ i ∧ i ≤ n ∧
      (i = s ∨ t.key (i - 1) ≤ k) ∧ (∀ j, i ≤ j → j < n → k < t.key j) ∧
        ∀ j, t'.entry j = if i < j ∧ j ≤ n then t.entry (j - 1) else t.entry j := by
  induction n generalizing t with
  | zero => exact ⟨0, t, rfl, rfl, rfl, hs, le_rfl, .inl (by omega), fun j h1 h2 => by omega,
      fun j => by rw [if_neg (by omega)]⟩
  | succ n ih =>
    have hread : read t.key n = some (t.key n) := read_eq (by omega)
    by_cases hgo : s < n + 1
    · by_cases hk : k < t.key n
      · obtain ⟨i, t', ht', hd, hh, hsi, hin, hbefore, hafter, he⟩ :=
          ih (t := t.assign (n + 1) (t.entry n)) (by omega) (by omega)
        have hkey : ∀ j, j ≤ n → (t.assign (n + 1) (t.entry n)).key j = t.key j := fun j hj => by
          simp [assign, show j ≠ n + 1 by omega]
        have hcopy : t.copy (n + 1) t n = some (t.assign (n + 1) (t.entry n)) :=
          copy_eq (by omega) (by omega)
        refine ⟨i, t', by simpa [makeGap, hgo, hread, hk, hcopy] using ht', hd, hh, hsi, by omega,
          ?_, fun j h1 h2 => ?_, fun j => ?_⟩
        · rcases hbefore with h | h
          · exact .inl h
          · exact .inr (by rwa [hkey _ (by omega)] at h)
        · rcases Nat.lt_succ_iff_lt_or_eq.1 h2 with h | rfl
          · have := hafter j h1 h
            rwa [hkey j (by omega)] at this
          · exact hk
        · rw [he, entry_assign, update_apply, update_apply]
          split_ifs <;> first | rfl | omega | subst_vars; rfl
      · exact ⟨n + 1, t, by simp [makeGap, hgo, hread, hk], rfl, rfl, hs, le_rfl,
          .inr (not_lt.1 hk), fun j h1 h2 => by omega, fun j => by rw [if_neg (by omega)]⟩
    · exact ⟨n + 1, t, by simp [makeGap, hgo], rfl, rfl, hs, le_rfl, .inl (by omega),
        fun j h1 h2 => by omega, fun j => by rw [if_neg (by omega)]⟩

/-- What stands in the first `n + 1` places once the gap at `i` is filled. -/
theorem map_range_gap {f f' : Nat → α} (hi : i ≤ n) (x : α)
    (h : ∀ j, f' j = if i < j ∧ j ≤ n then f (j - 1) else f j) :
    (List.range (n + 1)).map (update f' i x) =
      ((List.range n).map f).take i ++ x :: ((List.range n).map f).drop i := by
  refine ext_getElem (by simp; omega) fun m h1 h2 => ?_
  have hm : m < n + 1 := by simpa using h1
  simp only [getElem_map, getElem_range, update_apply, h, getElem_append,
    length_take, length_map, length_range, getElem_cons, getElem_take, getElem_drop]
  split_ifs <;> first | rfl | omega | (congr 1; omega)

theorem addEntry_ok (hd : t.degree < B) (hs : t.start ≤ t.degree) : ∃ i t', t.Gap k i ∧
    t.addEntry k p = some t' ∧ t'.height = t.height ∧ t'.degree = t.degree + 1 ∧
      t'.entries = t.entries.take i ++ (k, p) :: t.entries.drop i := by
  obtain ⟨i, t', ht', hd', hh, hsi, hin, hbefore, hafter, he⟩ := makeGap_ok (k := k) hd hs
  refine ⟨i, { t'.assign i (k, p) with degree := t'.degree + 1 }, ⟨hsi, hin, hbefore, hafter⟩,
    by simp [addEntry, ht', put_eq (show i < B by omega)], hh, by simp [hd'], ?_⟩
  rw [entries, entries, ← map_range_gap hin _ he, ← entry_assign, ← hd']
  rfl

/-- The lower half of a full node is shifted as a node with room is. -/
theorem fillLower_eq (hi : i < B) :
    fillLower s k p i t = (makeGap s k i t).bind fun (j, t') => t'.put j k p := by
  induction i generalizing t with
  | zero => rfl
  | succ i ih =>
    have hread : read t.key i = some (t.key i) := read_eq (by omega)
    have hcopy : t.copy (i + 1) t i = some (t.assign (i + 1) (t.entry i)) :=
      copy_eq (by omega) (by omega)
    by_cases hs : s < i + 1 <;> by_cases hk : k < t.key i <;>
      simp [fillLower, makeGap, hread, hcopy, hs, hk, Nat.le_of_lt_succ, ih (show i < B by omega),
        show ¬ s ≤ i ↔ ¬ s < i + 1 by omega]

theorem fillUpper_eq (fresh : Block κ ν) : fillUpper t k p 2 4 false fresh =
    some (if k < t.key 3 then
        if k < t.key 2 then (2, false, (fresh.assign 1 (t.entry 3)).assign 0 (t.entry 2))
        else (3, true, (fresh.assign 1 (t.entry 3)).assign 0 (k, p))
      else (3, true, (fresh.assign 1 (k, p)).assign 0 (t.entry 3))) := by
  by_cases h3 : k < t.key 3 <;> by_cases h2 : k < t.key 2 <;>
    simp [fillUpper, read_eq (show 3 < B by decide), read_eq (show 2 < B by decide),
      put_eq (show 1 < B by decide), put_eq (show 0 < B by decide),
      copy_eq (show 1 < B by decide) (show 3 < B by decide),
      copy_eq (show 0 < B by decide) (show 3 < B by decide),
      copy_eq (show 0 < B by decide) (show 2 < B by decide), h3, h2]

theorem split_eq {fresh t' : Block κ ν} {done : Bool}
    (h : fillUpper t k p 2 4 false fresh = some (i, done, new))
    (h' : (if done then some t else fillLower t.start k p i t) = some t') :
    t.split fresh k p =
      some ({ t' with degree := 3 }, { new with degree := 2, height := t'.height }) := by
  change (fillUpper t k p 2 4 false fresh).bind _ = _
  rw [h, bind_some]
  cases done with
  | true =>
    obtain rfl := some.inj h'
    rfl
  | false =>
    change (fillLower t.start k p i t).bind _ = _
    rw [show fillLower t.start k p i t = some t' from h']
    rfl

/-- A full node is split after three of the five entries. -/
theorem split_ok (fresh : Block κ ν) (hd : t.degree = B) : ∃ i t' new, t.Gap k i ∧
    t.split fresh k p = some (t', new) ∧ t'.height = t.height ∧ new.height = t.height ∧
      t'.degree = 3 ∧ new.degree = 2 ∧
        t'.entries = (t.entries.take i ++ (k, p) :: t.entries.drop i).take 3 ∧
          new.entries = (t.entries.take i ++ (k, p) :: t.entries.drop i).drop 3 := by
  have hd : t.degree = 4 := hd
  have hs : t.start ≤ 1 := by
    unfold start
    split <;> omega
  have hentries : t.entries = [t.entry 0, t.entry 1, t.entry 2, t.entry 3] := by
    simp [entries, hd, range_succ]
  have htwo : ∀ e0 e1, (List.range 2).map ((fresh.assign 1 e1).assign 0 e0).entry = [e0, e1] :=
    fun e0 e1 => by simp [entry_assign, range_succ]
  have hupper := fillUpper_eq (t := t) (k := k) (p := p) fresh
  by_cases h3 : k < t.key 3
  · by_cases h2 : k < t.key 2
    · rw [if_pos h3, if_pos h2] at hupper
      obtain ⟨i, t', ht', hd', hh, hsi, hin, hbefore, hafter, he⟩ :=
        makeGap_ok (k := k) (t := t) (show 2 < B by decide) (show t.start ≤ 2 by omega)
      have hlower : fillLower t.start k p 2 t = some (t'.assign i (k, p)) := by
        rw [fillLower_eq (by decide), ht']
        exact put_eq (lt_of_le_of_lt hin (by decide))
      refine ⟨i, _, _, ⟨hsi, by omega, hbefore, fun j hi hj => ?_⟩, split_eq hupper hlower, hh, hh,
        rfl, rfl, ?_, ?_⟩
      · rcases Nat.lt_or_ge j 2 with h | h
        · exact hafter j hi h
        · obtain rfl | rfl : j = 2 ∨ j = 3 := by omega
          · exact h2
          · exact h3
      · change (List.range 3).map (t'.assign i (k, p)).entry = _
        rw [entry_assign, map_range_gap hin _ he, hentries]
        interval_cases i <;> simp [range_succ]
      · rw [hentries]
        refine (htwo _ _).trans ?_
        interval_cases i <;> rfl
    · rw [if_pos h3, if_neg h2] at hupper
      refine ⟨3, _, _, ⟨by omega, by omega, .inr (not_lt.1 h2), fun j hi hj => ?_⟩,
        split_eq hupper rfl, rfl, rfl, rfl, rfl, ?_, ?_⟩
      · obtain rfl : j = 3 := by omega
        exact h3
      · rw [hentries]
        rfl
      · rw [hentries]
        exact htwo _ _
  · rw [if_neg h3] at hupper
    refine ⟨4, _, _, ⟨by omega, by omega, .inr (not_lt.1 h3), fun j hi hj => by omega⟩,
      split_eq hupper rfl, rfl, rfl, rfl, rfl, ?_, ?_⟩
    · rw [hentries]
      rfl
    · rw [hentries]
      exact htwo _ _

end Order

end Block

end CLangProject.AbTree
