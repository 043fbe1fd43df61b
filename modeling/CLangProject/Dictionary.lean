import Mathlib

/-!
# Dictionaries and the stores that implement them

A dictionary is a partial function from keys to objects. `insert` refuses a
key that is present (answer -1), `delete` returns what was stored under the
key. A `Store` is an implementation with its own states; its calls may have no
result, which stands for undefined behaviour such as following a NULL pointer.

A store follows the dictionary on a run when every call has the answer of the
dictionary and every state reached answers all queries as the dictionary does
(`Store.Follows`). The rule `Store.follows_iff` reduces this to one call:
it is enough to relate states to dictionaries so that every call outside of a
given set `Bad` keeps the relation, and every call in it has no result.
-/

namespace CLangProject

open List Option Function

variable {κ ο σ : Type*}

/-- The object stored under each key. -/
abbrev Dict (κ ο : Type*) := κ → Option ο

inductive Call (κ ο : Type*) where
  | insert (k : κ) (o : ο)
  | delete (k : κ)
  deriving DecidableEq, Repr

inductive Answer (ο : Type*) where
  | inserted (r : Int)
  | deleted (o : Option ο)
  deriving DecidableEq, Repr

/-- The call has found the key present, or absent, and has done nothing. -/
def Answer.Refused : Answer ο → Prop
  | .inserted r => r = -1
  | .deleted o => o = none

def Dict.empty : Dict κ ο := fun _ => none

def Dict.step [DecidableEq κ] (m : Dict κ ο) : Call κ ο → Dict κ ο × Answer ο
  | .insert k o =>
    if (m k).isSome then (m, .inserted (-1)) else (update m k (some o), .inserted 0)
  | .delete k => (update m k none, .deleted (m k))

/-- The dictionary after all calls. -/
def Dict.run [DecidableEq κ] (m : Dict κ ο) (cs : List (Call κ ο)) : Dict κ ο :=
  cs.foldl (fun m c => (m.step c).1) m

theorem Dict.run_insert_ne_none [DecidableEq κ] {m : Dict κ ο} {ks : List κ} {k : κ} {o : ο}
    (hk : k ∈ ks ∨ m k ≠ none) : m.run (ks.map fun k => .insert k o) k ≠ none := by
  induction ks generalizing m with
  | nil => simpa [run] using hk
  | cons k' ks ih =>
    have hstep : (m.step (.insert k' o)).1 = if (m k').isSome then m else update m k' (some o) := by
      simp only [step]
      split <;> rfl
    refine ih ?_
    beta_reduce
    rw [hstep]
    grind [update_apply]

structure Store (σ κ ο : Type*) where
  insert : σ → κ → ο → Option (σ × Int)
  delete : σ → κ → Option (σ × Option ο)
  find : σ → κ → Option (Option ο)

namespace Store

def step (S : Store σ κ ο) (t : σ) : Call κ ο → Option (σ × Answer ο)
  | .insert k o => (S.insert t k o).map fun (t', r) => (t', .inserted r)
  | .delete k => (S.delete t k).map fun (t', o) => (t', .deleted o)

/-- Every query has the answer of the dictionary. -/
def Shows (S : Store σ κ ο) (t : σ) (m : Dict κ ο) : Prop := ∀ k, S.find t k = some (m k)

/-- The calls, made one after the other, have the answers of the dictionary;
every state shows the dictionary, and `Good` holds across every call: for the
state before it, the answer and the state after it. -/
def Follows [DecidableEq κ] (S : Store σ κ ο) (Good : σ → Answer ο → σ → Prop) :
    σ → Dict κ ο → List (Call κ ο) → Prop
  | t, m, [] => S.Shows t m
  | t, m, c :: cs => S.Shows t m ∧ ∃ t', S.step t c = some (t', (m.step c).2) ∧
      Good t (m.step c).2 t' ∧ Follows S Good t' (m.step c).1 cs

/-- No call of the run is in the set `Bad`. -/
def Avoids (S : Store σ κ ο) (Bad : σ → Call κ ο → Prop) : σ → List (Call κ ο) → Prop
  | _, [] => True
  | t, c :: cs => ¬ Bad t c ∧ ∀ t' a, S.step t c = some (t', a) → Avoids S Bad t' cs

instance decidableAvoids (S : Store σ κ ο) (Bad : σ → Call κ ο → Prop)
    [hd : ∀ t c, Decidable (Bad t c)] : (t : σ) → (cs : List (Call κ ο)) →
    Decidable (S.Avoids Bad t cs)
  | _, [] => inferInstanceAs (Decidable True)
  | t, c :: cs =>
    have : Decidable (∀ t' a, S.step t c = some (t', a) → Avoids S Bad t' cs) :=
      match S.step t c with
      | none => .isTrue (by simp)
      | some (t', a) =>
        have := decidableAvoids S Bad t' cs
        decidable_of_iff (S.Avoids Bad t' cs) (by simp)
    inferInstanceAs (Decidable (¬ Bad t c ∧ ∀ t' a, S.step t c = some (t', a) → Avoids S Bad t' cs))

/-- The state after all calls. -/
def run (S : Store σ κ ο) : σ → List (Call κ ο) → Option σ
  | t, [] => some t
  | t, c :: cs => (S.step t c).bind fun (t', _) => run S t' cs

/-- Every call has a result, and `Post` holds across it: for the state before
it, the call, the answer and the state after it. -/
def Runs (S : Store σ κ ο) (Post : σ → Call κ ο → Answer ο → σ → Prop) : σ → List (Call κ ο) → Prop
  | _, [] => True
  | t, c :: cs => ∃ t' a, S.step t c = some (t', a) ∧ Post t c a t' ∧ Runs S Post t' cs

variable [DecidableEq κ] {S : Store σ κ ο} {Good : σ → Answer ο → σ → Prop}

variable {t : σ} {cs : List (Call κ ο)} {m : Dict κ ο}
  {Bad : σ → Call κ ο → Prop} {R : σ → Dict κ ο → Prop}

theorem Follows.mono {Good' : σ → Answer ο → σ → Prop} (hg : ∀ t a t', Good t a t' → Good' t a t')
    (h : S.Follows Good t m cs) :
    S.Follows Good' t m cs := by
  induction cs generalizing t m with
  | nil => exact h
  | cons c cs ih =>
    obtain ⟨hs, t', ht', hgood, hf⟩ := h
    exact ⟨hs, t', ht', hg _ _ _ hgood, ih hf⟩

theorem Follows.run_ne_none (h : S.Follows Good t m cs) : S.run t cs ≠ none := by
  induction cs generalizing t m with
  | nil => simp [run]
  | cons c cs ih =>
    obtain ⟨-, t', hs, -, hf⟩ := h
    simpa [run, hs] using ih hf

theorem Follows.shows (h : S.Follows Good t m cs) : S.Shows t m := by
  cases cs with
  | nil => exact h
  | cons c cs => exact h.1

section

variable (hshows : ∀ t m, R t m → S.Shows t m)
  (hstep : ∀ t m c, R t m → ¬ Bad t c → ∃ t', S.step t c = some (t', (m.step c).2) ∧
    Good t (m.step c).2 t' ∧ R t' (m.step c).1)
include hshows hstep

/-- A store follows the dictionary on the runs that avoid certain calls. -/
theorem follows_of_avoids (h : R t m) (ha : S.Avoids Bad t cs) : S.Follows Good t m cs := by
  induction cs generalizing t m with
  | nil => exact hshows t m h
  | cons c cs ih =>
    obtain ⟨t', hs, hg, hr⟩ := hstep t m c h ha.1
    exact ⟨hshows t m h, t', hs, hg, ih hr (ha.2 t' _ hs)⟩

/-- A store follows the dictionary exactly on the runs that avoid the calls
after which it does not show the dictionary, or `Good` fails. -/
theorem follows_iff_of_breaks
    (hbad : ∀ t m c, R t m → Bad t c → ∀ t', S.step t c = some (t', (m.step c).2) →
      Good t (m.step c).2 t' → ¬ S.Shows t' (m.step c).1) (h : R t m) :
    S.Follows Good t m cs ↔ S.Avoids Bad t cs := by
  refine ⟨fun hf => ?_, follows_of_avoids hshows hstep h⟩
  induction cs generalizing t m with
  | nil => trivial
  | cons c cs ih =>
    obtain ⟨-, t1, h1, hg1, hf⟩ := hf
    have hc : ¬ Bad t c := fun hc => hbad t m c h hc t1 h1 hg1 hf.shows
    refine ⟨hc, fun t2 a h2 => ?_⟩
    obtain ⟨t', hs, -, hr⟩ := hstep t m c h hc
    obtain rfl : t' = t1 := congrArg Prod.fst (some.inj (hs.symm.trans h1))
    obtain rfl : t' = t2 := congrArg Prod.fst (some.inj (hs.symm.trans h2))
    exact ih hr hf

/-- A store follows the dictionary exactly on the runs that avoid the calls
without a result. -/
theorem follows_iff (hbad : ∀ t c, Bad t c → S.step t c = none)
    (h : R t m) : S.Follows Good t m cs ↔ S.Avoids Bad t cs := by
  refine follows_iff_of_breaks hshows hstep (fun t m c _ hc t' ht' => ?_) h
  rw [hbad t c hc] at ht'
  cases ht'

end

/-- A store follows the dictionary on a run all of whose calls have a result. -/
theorem follows_of {P : Call κ ο → Prop} (hshows : ∀ t m, R t m → S.Shows t m)
    (hstep : ∀ t m c, P c → R t m → ∃ t', S.step t c = some (t', (m.step c).2) ∧
      Good t (m.step c).2 t' ∧ R t' (m.step c).1) (hcs : ∀ c ∈ cs, P c) (h : R t m) :
    S.Follows Good t m cs := by
  induction cs generalizing t m with
  | nil => exact hshows t m h
  | cons c cs ih =>
    obtain ⟨hc, hcs⟩ := forall_mem_cons.1 hcs
    obtain ⟨t', hs, hg, hr⟩ := hstep t m c hc h
    exact ⟨hshows t m h, t', hs, hg, ih hcs hr⟩

/-- A store all of whose calls have a result follows the dictionary on every
run. -/
theorem follows (hshows : ∀ t m, R t m → S.Shows t m)
    (hstep : ∀ t m c, R t m → ∃ t', S.step t c = some (t', (m.step c).2) ∧
      Good t (m.step c).2 t' ∧ R t' (m.step c).1)
    (cs : List (Call κ ο)) (h : R t m) : S.Follows Good t m cs :=
  follows_of (P := fun _ => True) hshows (fun t m c _ => hstep t m c) (fun _ _ => trivial) h

omit [DecidableEq κ] in
/-- What holds after every call holds in the end. -/
theorem Runs.of_run {Post : σ → Call κ ο → Answer ο → σ → Prop} {P : σ → Prop}
    (hpost : ∀ t c a t', Post t c a t' → P t') {t' : σ}
    (h : S.Runs Post t cs) (ht : P t) (hrun : S.run t cs = some t') : P t' := by
  induction cs generalizing t with
  | nil =>
    obtain rfl := some.inj hrun
    exact ht
  | cons c cs ih =>
    obtain ⟨t1, a, hs, hp, hruns⟩ := h
    rw [run, hs, bind_some] at hrun
    exact ih hruns (hpost _ _ _ _ hp) hrun

/-! ### Runs without certain calls

The calls in `Skip` are excluded from the start, those in `Bad` have no result. -/

section Runs

variable {Post : σ → Call κ ο → Answer ο → σ → Prop} {Skip : σ → Call κ ο → Prop}
  (hstep : ∀ t m c, R t m → ¬ Skip t c → ¬ Bad t c → ∃ t' a, S.step t c = some (t', a) ∧
    Post t c a t' ∧ R t' (m.step c).1)
  (hbad : ∀ t m c, R t m → Bad t c → S.step t c = none)

include hstep hbad

theorem runs_iff (h : R t m)
    (hskip : S.Avoids Skip t cs) : S.Runs Post t cs ↔ S.Avoids Bad t cs := by
  induction cs generalizing t m with
  | nil => exact Iff.rfl
  | cons c cs ih =>
    by_cases hc : Bad t c
    · refine iff_of_false (fun ⟨t', a, ht', _⟩ => ?_) fun ⟨hn, _⟩ => hn hc
      rw [hbad t m c h hc] at ht'
      cases ht'
    · obtain ⟨t', a, hs, hp, hr⟩ := hstep t m c h hskip.1 hc
      constructor
      · rintro ⟨t1, a1, h1, -, hruns⟩
        refine ⟨hc, fun t2 a2 h2 => ?_⟩
        obtain rfl : t' = t1 := congrArg Prod.fst (some.inj (hs.symm.trans h1))
        obtain rfl : t' = t2 := congrArg Prod.fst (some.inj (hs.symm.trans h2))
        exact (ih hr (hskip.2 t' a hs)).1 hruns
      · rintro ⟨-, ha⟩
        exact ⟨t', a, hs, hp, (ih hr (hskip.2 t' a hs)).2 (ha t' a hs)⟩

omit hbad in
theorem exists_run (h : R t m) (hskip : S.Avoids Skip t cs) (havoid : S.Avoids Bad t cs) :
    ∃ t', S.run t cs = some t' ∧ R t' (m.run cs) := by
  induction cs generalizing t m with
  | nil => exact ⟨t, rfl, h⟩
  | cons c cs ih =>
    obtain ⟨t', a, hs, -, hr⟩ := hstep t m c h hskip.1 havoid.1
    obtain ⟨t'', ht'', hr'⟩ := ih hr (hskip.2 t' a hs) (havoid.2 t' a hs)
    exact ⟨t'', by simp [run, hs, ht''], hr'⟩

theorem avoids_of_run {t' : σ} (h : R t m)
    (hskip : S.Avoids Skip t cs) (hrun : S.run t cs = some t') : S.Avoids Bad t cs := by
  induction cs generalizing t m with
  | nil => trivial
  | cons c cs ih =>
    have hc : ¬ Bad t c := fun hc => by simp [run, hbad t m c h hc] at hrun
    obtain ⟨t1, a, hs, -, hr⟩ := hstep t m c h hskip.1 hc
    refine ⟨hc, fun t2 a2 h2 => ?_⟩
    obtain rfl : t1 = t2 := congrArg Prod.fst (some.inj (hs.symm.trans h2))
    exact ih hr (hskip.2 t1 a hs) (by simpa [run, hs] using hrun)

end Runs

end Store

/-! ## Lists of entries -/

/-- The dictionary with the entries `es`. -/
def Holds (es : List (κ × ο)) (m : Dict κ ο) : Prop := ∀ k o, (k, o) ∈ es ↔ m k = some o

theorem holds_nil : Holds ([] : List (κ × ο)) Dict.empty := fun k o => by simp [Dict.empty]

/-- What `insert` does to the entries, with the value it returns. -/
structure Inserted (es : List (κ × ο)) (k : κ) (o : ο) (es' : List (κ × ο)) (r : Int) : Prop where
  present : (∃ x, (k, x) ∈ es) → r = -1 ∧ ∀ p, p ∈ es' ↔ p ∈ es
  absent : (∀ x, (k, x) ∉ es) → r = 0 ∧ ∀ p, p ∈ es' ↔ p ∈ es ∨ p = (k, o)

/-- What `delete` does to the entries, with the value it returns. -/
structure Deleted (es : List (κ × ο)) (k : κ) (es' : List (κ × ο)) (r : Option ο) : Prop where
  returned : ∀ o, r = some o ↔ (k, o) ∈ es
  entries : ∀ p, p ∈ es' ↔ p ∈ es ∧ p.1 ≠ k

variable {es es' : List (κ × ο)} {k : κ} {o : ο} {m : Dict κ ο}

section

variable {es1 : List (κ × ο)} (hm : ∀ p, p ∈ es' ↔ p ∈ es1)
include hm

theorem Inserted.congr {r : Int} (h : Inserted es k o es1 r) : Inserted es k o es' r :=
  ⟨by simpa only [hm] using h.present, by simpa only [hm] using h.absent⟩

theorem Deleted.congr {r : Option ο} (h : Deleted es k es1 r) : Deleted es k es' r :=
  ⟨h.returned, by simpa only [hm] using h.entries⟩

end

theorem Deleted.of_absent (h : ∀ x, (k, x) ∉ es) : Deleted es k es none where
  returned x := iff_of_false (by simp) (h x)
  entries p := ⟨fun hp => ⟨hp, fun hk => h p.2 (hk ▸ hp)⟩, And.left⟩

theorem Deleted.only : Deleted [(k, o)] k [] (some o) where
  returned x := by simp [eq_comm]
  entries p := by
    simp only [not_mem_nil, mem_singleton, false_iff, not_and, not_not]
    rintro rfl
    rfl

variable [DecidableEq κ]

theorem Inserted.step {r : Int} (h : Inserted es k o es' r) (hm : Holds es m) :
    (m.step (.insert k o)).2 = .inserted r ∧ Holds es' (m.step (.insert k o)).1 := by
  cases hk : m k with
  | some x =>
    obtain ⟨rfl, he⟩ := h.present ⟨x, (hm k x).2 hk⟩
    refine ⟨by simp [Dict.step, hk], fun q y => ?_⟩
    simp [Dict.step, hk, he, hm q y]
  | none =>
    obtain ⟨rfl, he⟩ := h.absent fun x hx => by simp [(hm k x).1 hx] at hk
    refine ⟨by simp [Dict.step, hk], fun q y => ?_⟩
    rw [he, hm q y]
    by_cases hq : q = k
    · subst hq
      simp [Dict.step, hk, eq_comm]
    · simp [Dict.step, hk, hq]

theorem Deleted.step {r : Option ο} (h : Deleted es k es' r) (hm : Holds es m) :
    (m.step (.delete k)).2 = .deleted r ∧ Holds es' (m.step (.delete k)).1 := by
  have hr : r = m k := Option.ext fun x => by rw [h.returned, hm k x]
  refine ⟨by simp [Dict.step, hr], fun q y => ?_⟩
  rw [h.entries, hm q y]
  by_cases hq : q = k
  · subst hq
    simp [Dict.step]
  · simp [Dict.step, hq]

/-! ## Look-up under codes -/

/-- What `insert` does to a look-up, with the value it returns. -/
structure Entered {β : Type*} [DecidableEq β] (L : β → Option ο) (c : β) (o : ο)
    (L' : β → Option ο) (r : Int) :
    Prop where
  present : L c ≠ none → r = -1 ∧ L' = L
  absent : L c = none → r = 0 ∧ L' = update L c (some o)

section

variable {β : Type*} [DecidableEq β] {L L' : β → Option ο} {c : β}

theorem Entered.of_present (h : L c ≠ none) : Entered L c o L (-1) :=
  ⟨fun _ => ⟨rfl, rfl⟩, fun hn => (h hn).elim⟩

theorem Entered.of_absent (h : L c = none) (hL' : L' = update L c (some o)) : Entered L c o L' 0 :=
  ⟨fun hne => (hne h).elim, fun _ => ⟨rfl, hL'⟩⟩

theorem Entered.of_ne_none {r : Int} {c' : β} (h : Entered L c o L' r) (hc : L' c' ≠ none) :
    L c' ≠ none ∨ c' = c := by
  by_cases hL : L c = none
  · rw [(h.absent hL).2, update_apply] at hc
    grind
  · exact .inl ((h.present hL).2 ▸ hc)

variable {code : κ → β} (hcode : Injective code) (hL : ∀ k, L (code k) = m k)
include hcode hL

theorem Entered.step {r : Int} (h : Entered L (code k) o L' r) :
    (m.step (.insert k o)).2 = .inserted r ∧ ∀ k', L' (code k') = (m.step (.insert k o)).1 k' := by
  cases hk : m k with
  | some x =>
    obtain ⟨rfl, rfl⟩ := h.present (by simp [hL, hk])
    simp [Dict.step, hk, hL]
  | none =>
    obtain ⟨rfl, rfl⟩ := h.absent ((hL k).trans hk)
    simp [Dict.step, hk, hL, update_apply, hcode.eq_iff]

theorem step_delete_of_update (hL' : L' = update L (code k) none) (k' : κ) :
    L' (code k') = (m.step (.delete k)).1 k' := by
  simp [hL', Dict.step, hL, update_apply, hcode.eq_iff]

end

end CLangProject
