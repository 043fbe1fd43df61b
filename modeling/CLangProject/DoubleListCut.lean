import CLangProject.DoubleList

/-!
# Doubly linked lists: cut and paste

`DoubleList_cut` takes the nodes between two nodes out of a list, and `DoubleList_paste` puts a
list behind a node. Both change links only, and of the nodes at the joints only; what a
node outside of the lists looks like is not changed. A paste behind the node before
the cut brings back the memory as it was.
-/

namespace CLangProject.DoubleList

open List Option

variable {ο : Type} {m m' : Cells (Node ο)} {a : Nat} {p : Option Nat} {l lp ls lq lt : List Nat}

/-- The list `p` has the nodes `l`, and the pointer leads to the first one. -/
structure IsList (m : Cells (Node ο)) (p : Option Nat) (l : List Nat) : Prop where
  nodup : l.Nodup
  links : Links (Cells.link Node.next m) (Cells.link Node.prev m) none l none
  live : ∀ a ∈ l, ∃ x, getData m a = some x
  handle : l.head? = p

theorem at_iff {L : List ο} : At m p [] l [] L ↔ IsList m p l ∧ l.map (getData m) = L.map some := by
  constructor
  · intro h
    exact ⟨⟨h.nodup, h.links, fun a ha => h.exists_data ha, h.handle⟩, h.suf_eq⟩
  · rintro ⟨h, hL⟩
    exact ⟨h.nodup, h.links, rfl, hL, h.handle, fun _ => rfl⟩

variable {data : Nat → Option ο} {start end_ t : Nat}

theorem exists_map_some (h : ∀ a ∈ l, ∃ x, data a = some x) :
    ∃ L : List ο, l.map data = L.map some := by
  induction l with
  | nil => exact ⟨[], rfl⟩
  | cons a l ih =>
    obtain ⟨⟨x, hx⟩, h⟩ := forall_mem_cons.1 h
    obtain ⟨L, hL⟩ := ih h
    exact ⟨x :: L, by rw [map_cons, hx, hL, map_cons]⟩

theorem View.eq {next prev : Nat → Option Nat} {next' prev' : Nat → Option Nat}
    {data' : Nat → Option ο} (v : View m next prev data) (v' : View m' next' prev' data')
    (hnext : next' a = next a) (hprev : prev' a = prev a) (hdata : data' a = data a) :
    m' a = m a := by
  cases hx : data a with
  | none =>
    have hm : getData m a = none := by rw [v.data_eq, hx]
    have hm' : getData m' a = none := by rw [v'.data_eq, hdata, hx]
    rw [map_eq_none_iff.1 hm, map_eq_none_iff.1 hm']
  | some x =>
    obtain ⟨n, hn, rfl⟩ := v.exists_node hx
    obtain ⟨n', hn', rfl⟩ := v'.exists_node (hdata.trans hx)
    rw [hn, hn', hnext, hprev]

/-! ## Cut -/

theorem IsList.cut (h : IsList m p (lp ++ ls ++ lq)) (hstart : ls.head? = some start)
    (hend : ls.getLast? = some end_) : ∃ m' p', DoubleList.cut m p start end_ = some (m', p') ∧
      getData m' = getData m ∧ IsList m' p' (lp ++ lq) ∧ IsList m' (some start) ls ∧
      ∀ b, b ∉ lp ++ ls ++ lq → m' b = m b := by
  obtain ⟨hlps, hnodupq, hdisjq⟩ := nodup_append.1 h.nodup
  obtain ⟨hnodupp, hnodups, hdisjp⟩ := nodup_append.1 hlps
  have hstartmem : start ∈ ls := mem_of_head? hstart
  have hendmem : end_ ∈ ls := mem_of_getLast? hend
  have hs : ∀ b ∈ ls, b ∈ lp ++ ls := fun b hb => mem_append_right _ hb
  have hnodup : (lp ++ lq).Nodup := by
    refine h.nodup.sublist ?_
    rw [append_assoc]
    exact (sublist_append_right ls lq).append_left lp
  -- the three parts
  obtain ⟨hlinks, hq⟩ := links_append.1 h.links
  obtain ⟨hp, hs'⟩ := links_append.1 hlinks
  simp only [or_none] at hp hs' hq
  have hlive : ∀ b ∈ lp ++ ls ++ lq, ∃ x, getData m b = some x := h.live
  obtain ⟨x, hx⟩ := hlive start (mem_append_left _ (hs start hstartmem))
  obtain ⟨y, hy⟩ := hlive end_ (mem_append_left _ (hs end_ hendmem))
  have hprev : Cells.link Node.prev m start = lp.getLast? := hs'.prev_head hstart
  have hnext : Cells.link Node.next m end_ = lq.head? := hs'.next_last hend
  have hlast : ∀ b ∈ ls ++ lq, lp.getLast? ≠ some b := fun b hb heq => by
    have hmem := mem_of_getLast? heq
    rcases mem_append.1 hb with hb | hb
    · exact hdisjp b hmem b hb rfl
    · exact hdisjq b (mem_append_left _ hmem) b hb rfl
  have hhead : ∀ b ∈ lp ++ ls, lq.head? ≠ some b :=
    fun b hb heq => hdisjq b hb b (mem_of_head? heq) rfl
  have hgetPrev := (View.refl m).getPrev_eq hx
  have hgetNext := (View.refl m).getNext_eq hy
  rw [hprev] at hgetPrev
  rw [hnext] at hgetNext
  obtain ⟨m1, h1, v1⟩ := (View.refl m).setNextOf (p := lp.getLast?)
    (fun b hb => hlive b (mem_append_left _ (mem_append_left _ (mem_of_getLast? hb)))) lq.head?
  have hgetPrev1 := v1.getPrev_eq hx
  have hgetNext1 := v1.getNext_eq hy
  rw [hprev] at hgetPrev1
  rw [redirect, if_neg (hlast end_ (mem_append_left _ hendmem)), hnext] at hgetNext1
  obtain ⟨m2, h2, v2⟩ := v1.setPrevOf (p := lq.head?)
    (fun b hb => hlive b (mem_append_right _ (mem_of_head? hb))) lp.getLast?
  have hgetNext2 := v2.getNext_eq hy
  rw [redirect, if_neg (hlast end_ (mem_append_left _ hendmem)), hnext] at hgetNext2
  obtain ⟨m3, h3, v3⟩ := v2.setNext hy none
  obtain ⟨m4, h4, v4⟩ := v3.setPrev hx none
  -- the pointer moves only if the first node is cut
  have hlist : (if p = some start then lq.head? else p) = (lp ++ lq).head? := by
    have hhandle := h.handle
    cases lp with
    | nil =>
      rw [nil_append, List.head?_append_of_ne_nil _ (ne_nil_of_mem hstartmem), hstart] at hhandle
      rw [if_pos hhandle.symm, nil_append]
    | cons b lp =>
      have hb : p = some b := hhandle.symm
      have hne : b ≠ start := hdisjp b mem_cons_self start hstartmem
      rw [if_neg (by rw [hb]; simpa using hne), hb]
      rfl
  refine ⟨m4, (lp ++ lq).head?, ?_, v4.data_eq, ⟨?_, ?_, fun b hb => ?_, rfl⟩,
    ⟨hnodups, ?_, fun b hb => ?_, hstart⟩,
    fun b hb => ?_⟩
  · simp only [DoubleList.cut, hgetPrev, hgetNext, h1, hgetPrev1, hgetNext1, h2, hgetNext2, h3, h4,
      bind_eq_bind, bind_some]
    rw [← hlist]
    split_ifs <;> rfl
  · exact hnodup
  · rw [v4.next_eq, v4.prev_eq]
    refine hp.join hq hnodup (fun b hb => ?_) (fun b hb => ?_) (fun b hb => ?_) fun b hb => ?_
    · have hne : end_ ≠ b := (hdisjp b hb end_ hendmem).symm
      simp [redirect, hne]
    · have hne : start ≠ b := (hdisjp b hb start hstartmem).symm
      simp [redirect, hne, hhead b (mem_append_left _ hb)]
    · have hne : end_ ≠ b := hdisjq end_ (hs end_ hendmem) b hb
      simp [redirect, hne, hlast b (mem_append_right _ hb)]
    · have hne : start ≠ b := hdisjq start (hs start hstartmem) b hb
      simp [redirect, hne]
  · rw [v4.data_eq]
    refine hlive b ?_
    rcases mem_append.1 hb with hb | hb
    · exact mem_append_left _ (mem_append_left _ hb)
    · exact mem_append_right _ hb
  · rw [v4.next_eq, v4.prev_eq]
    refine hs'.ends hnodups (fun b hb => ?_) fun b hb => ?_
    · simp [redirect, hend, hlast b (mem_append_left _ hb)]
    · simp [redirect, hstart, hhead b (hs b hb)]
  · rw [v4.data_eq]
    exact hlive b (mem_append_left _ (hs b hb))
  · rw [mem_append, mem_append, not_or, not_or] at hb
    have hstartb : start ≠ b := fun heq => hb.1.2 (heq ▸ hstartmem)
    have hendb : end_ ≠ b := fun heq => hb.1.2 (heq ▸ hendmem)
    have hlastb : lp.getLast? ≠ some b := fun heq => hb.1.1 (mem_of_getLast? heq)
    have hheadb : lq.head? ≠ some b := fun heq => hb.2 (mem_of_head? heq)
    refine (View.refl m).eq v4 ?_ ?_ rfl
    · simp [redirect, hendb, hlastb]
    · simp [redirect, hstartb, hheadb]

/-! ## Paste -/

theorem IsList.nth_last (h : IsList m p l) : Ends (nth · m p (-1)) l.getLast? := by
  obtain ⟨L, hL⟩ : ∃ L : List ο, l.map (getData m) = L.map some := exists_map_some h.live
  have hnth := (at_iff.2 ⟨h, hL⟩).nth.2 0
  rwa [nil_append, ← List.head?_eq_getElem?, List.head?_reverse] at hnth

theorem IsList.paste {s : Nat} (h : IsList m p (lp ++ lq)) (ht : lp.getLast? = some t)
    (hs : IsList m (some s) ls) (hdisj : ∀ b ∈ lp ++ lq, b ∉ ls) :
    ∃ m', Ends (DoubleList.paste · m (some t) (some s)) (m', some t, none) ∧
      getData m' = getData m ∧ IsList m' p (lp ++ ls ++ lq) ∧ ∀ b, b ∉ lp ++ ls ++ lq →
        m' b = m b := by
  obtain ⟨hnodupp, hnodupq, hdisjq⟩ := nodup_append.1 h.nodup
  have htmem : t ∈ lp := mem_of_getLast? ht
  have hsmem : s ∈ ls := mem_of_head? hs.handle
  obtain ⟨z, hz⟩ : ∃ z, ls.getLast? = some z :=
    ⟨_, List.getLast?_eq_some_getLast (ne_nil_of_mem hsmem)⟩
  have hzmem : z ∈ ls := mem_of_getLast? hz
  obtain ⟨x, hx⟩ := h.live t (mem_append_left _ htmem)
  obtain ⟨y, hy⟩ := hs.live z hzmem
  obtain ⟨w, hw⟩ := hs.live s hsmem
  obtain ⟨hp, hq⟩ := links_append.1 h.links
  simp only [or_none] at hp hq
  have hnext : Cells.link Node.next m t = lq.head? := hp.next_last ht
  have hpz : ∀ b ∈ lp ++ lq, b ≠ z ∧ b ≠ s := fun b hb =>
    ⟨fun heq => hdisj b hb (heq ▸ hzmem), fun heq => hdisj b hb (heq ▸ hsmem)⟩
  have htz := hpz t (mem_append_left _ htmem)
  have htne : ∀ b ∈ ls ++ lq, t ≠ b := by
    intro b hb
    rcases mem_append.1 hb with hb | hb
    · exact fun heq => hdisj t (mem_append_left _ htmem) (heq ▸ hb)
    · exact hdisjq t htmem b hb
  have hhead : ∀ b ∈ lp ++ ls, lq.head? ≠ some b := fun b hb heq => by
    have hmem := mem_of_head? heq
    rcases mem_append.1 hb with hb | hb
    · exact hdisjq b hb b hmem rfl
    · exact hdisj b (mem_append_right _ hmem) hb
  have hgetNext := (View.refl m).getNext_eq hx
  rw [hnext] at hgetNext
  obtain ⟨m1, h1, v1⟩ := (View.refl m).setNext hy lq.head?
  have hgetNext1 := v1.getNext_eq hx
  rw [redirect, if_neg (by simpa using htz.1.symm), hnext] at hgetNext1
  obtain ⟨m2, h2, v2⟩ := v1.setPrevOf (p := lq.head?)
    (fun b hb => h.live b (mem_append_right _ (mem_of_head? hb))) (some z)
  obtain ⟨m3, h3, v3⟩ := v2.setPrev hw (some t)
  obtain ⟨m4, h4, v4⟩ := v3.setNext hx (some s)
  have hnodup : (lp ++ ls ++ lq).Nodup := by
    have hperm : (lp ++ ls ++ lq).Perm (lp ++ lq ++ ls) := by
      rw [append_assoc, append_assoc]
      exact perm_append_comm.append_left lp
    refine hperm.nodup_iff.2 (nodup_append.2 ⟨h.nodup, hs.nodup, fun b hb c hc heq => ?_⟩)
    exact hdisj b hb (heq ▸ hc)
  refine ⟨m4, ?_, v4.data_eq, ⟨hnodup, ?_, fun b hb => ?_, ?_⟩, fun b hb => ?_⟩
  · obtain ⟨bound, hbound⟩ := hs.nth_last
    refine ⟨bound, fun fuel hfuel => ?_⟩
    have hnth := hbound fuel hfuel
    rw [hz] at hnth
    simp only [DoubleList.paste, hnth, hgetNext, h1, hgetNext1, h2, h3, h4, bind_eq_bind, bind_some]
  · rw [v4.next_eq, v4.prev_eq]
    refine links_append.2 ⟨links_append.2 ⟨?_, ?_⟩, ?_⟩
    · refine hp.last hnodupp (fun b hb => ?_) fun b hb => ?_
      · have hne := hpz b (mem_append_left _ hb)
        simp [redirect, ht, hs.handle, hne.1.symm]
      · have hne := hpz b (mem_append_left _ hb)
        simp [redirect, hne.2.symm, hhead b (mem_append_left _ hb)]
    · refine hs.links.ends hs.nodup (fun b hb => ?_) fun b hb => ?_
      · simp [redirect, hz, htne b (mem_append_left _ hb)]
      · simp [redirect, ht, hs.handle, hhead b (mem_append_right _ hb)]
    · refine hq.head hnodupq (fun b hb => ?_) fun b hb => ?_
      · have hne := hpz b (mem_append_right _ hb)
        simp [redirect, hne.1.symm, htne b (mem_append_right _ hb)]
      · have hne := hpz b (mem_append_right _ hb)
        simp [redirect, hz, hne.2.symm]
  · rw [v4.data_eq]
    rcases mem_append.1 hb with hb | hb
    · rcases mem_append.1 hb with hb | hb
      · exact h.live b (mem_append_left _ hb)
      · exact hs.live b hb
    · exact h.live b (mem_append_right _ hb)
  · have hhandle := h.handle
    have hne := ne_nil_of_mem htmem
    rw [List.head?_append_of_ne_nil _ hne] at hhandle
    rw [append_assoc, List.head?_append_of_ne_nil _ hne, hhandle]
  · rw [mem_append, mem_append, not_or, not_or] at hb
    have hsb : s ≠ b := fun heq => hb.1.2 (heq ▸ hsmem)
    have hzb : z ≠ b := fun heq => hb.1.2 (heq ▸ hzmem)
    have htb : t ≠ b := fun heq => hb.1.1 (heq ▸ htmem)
    have hheadb : lq.head? ≠ some b := fun heq => hb.2 (mem_of_head? heq)
    refine (View.refl m).eq v4 ?_ ?_ rfl
    · simp [redirect, hzb, htb]
    · simp [redirect, hsb, hheadb]

/-- A paste behind the node before the cut restores the memory. -/
theorem IsList.paste_cut (h : IsList m p (lp ++ ls ++ lq)) (hstart : ls.head? = some start)
    (hend : ls.getLast? = some end_) (ht : lp.getLast? = some t) {p' : Option Nat}
    (hcut : DoubleList.cut m p start end_ = some (m', p')) :
    Ends (DoubleList.paste · m' (some t) (some start)) (m, some t, none) := by
  obtain ⟨m1, p1, hcut', hdata, hlist, hs, hframe⟩ := h.cut hstart hend
  obtain ⟨rfl, rfl⟩ : m' = m1 ∧ p' = p1 := by simpa [hcut] using hcut'
  have hdisj : ∀ b ∈ lp ++ lq, b ∉ ls := by
    intro b hb hbs
    obtain ⟨hlps, -, hdisjq⟩ := nodup_append.1 h.nodup
    rcases mem_append.1 hb with hb | hb
    · exact (nodup_append.1 hlps).2.2 b hb b hbs rfl
    · exact hdisjq b (mem_append_right _ hbs) b hb rfl
  obtain ⟨m2, hpaste, hdata2, hlist2, hframe2⟩ := hlist.paste ht hs hdisj
  have heq : m2 = m := by
    funext b
    by_cases hb : b ∈ lp ++ ls ++ lq
    · have hagree := h.links.agree hlist2.links b hb
      exact (View.refl m).eq (View.refl m2) hagree.1 hagree.2 (by rw [hdata2, hdata])
    · rw [hframe2 b hb, hframe b hb]
  rwa [heq] at hpaste

/-! ## Elements -/

/-- A cut of the nodes `ls` from a list with the elements `P ++ S ++ Q`, and a paste of the
nodes `lt` behind the last node of `P`. The second one undoes the first one. -/
theorem cut_paste (m : Cells (Node ο)) (p : Option Nat) :
    (∀ (lp ls lq : List Nat) (P S Q : List ο) (start end_ : Nat), At m p [] (lp ++ ls ++ lq) []
        (P ++ S ++ Q) →
      lp.length = P.length → ls.length = S.length → ls.head? = some start →
      ls.getLast? = some end_ → ∃ m' p', cut m p start end_ = some (m', p') ∧
        At m' p' [] (lp ++ lq) [] (P ++ Q) ∧ (P = [] → Q = [] → p' = none) ∧
        At m' (some start) [] ls [] S ∧ ∀ t, lp.getLast? = some t →
          Ends (paste · m' (some t) (some start)) (m, some t, none)) ∧
    ∀ (lp lt lq : List Nat) (P T Q : List ο) (s t : Nat), At m p [] (lp ++ lq) [] (P ++ Q) →
      lp.length = P.length → lp.getLast? = some t → At m (some s) [] lt [] T →
      (∀ b ∈ lp ++ lq, b ∉ lt) → ∃ m', Ends (paste · m (some t) (some s)) (m', some t, none) ∧
        At m' p [] (lp ++ lt ++ lq) [] (P ++ T ++ Q) := by
  constructor
  · intro lp ls lq P S Q start end_ h hP hS hstart hend
    obtain ⟨hlist, hL⟩ := at_iff.1 h
    obtain ⟨m', p', hcut, hdata, hlist', hs, -⟩ := hlist.cut hstart hend
    simp only [map_append] at hL
    obtain ⟨hL, hQ⟩ := append_inj hL (by simp [hP, hS])
    obtain ⟨hP, hS⟩ := append_inj hL (by simp [hP])
    have hat : At m' p' [] (lp ++ lq) [] (P ++ Q) := by
      refine at_iff.2 ⟨hlist', ?_⟩
      rw [hdata, map_append, map_append, hP, hQ]
    refine ⟨m', p', hcut, hat, fun hP hQ => ?_, at_iff.2 ⟨hs, hdata ▸ hS⟩,
      fun t ht => hlist.paste_cut hstart hend ht hcut⟩
    subst hP hQ
    have hnil : lp ++ lq = [] := by simpa using hat.suf_eq
    rw [← hat.handle, hnil]
    rfl
  · intro lp lt lq P T Q s t h hP ht hT hdisj
    obtain ⟨hlist, hL⟩ := at_iff.1 h
    obtain ⟨hs, hT⟩ := at_iff.1 hT
    obtain ⟨m', hpaste, hdata, hlist', -⟩ := hlist.paste ht hs hdisj
    simp only [map_append] at hL
    obtain ⟨hP, hQ⟩ := append_inj hL (by simp [hP])
    refine ⟨m', hpaste, at_iff.2 ⟨hlist', ?_⟩⟩
    rw [hdata, map_append, map_append, map_append, map_append, hP, hT, hQ]

theorem cut_paste_oneTwo : At oneTwo (some 0) [] [0, 1] [] [1, 2] ∧
    ∃ m' p', cut oneTwo (some 0) 1 1 = some (m', p') ∧ At m' p' [] [0] [] [1] ∧
      At m' (some 1) [] [1] [] [2] ∧ Ends (paste · m' (some 0) (some 1)) (oneTwo, some 0, none) ∧
      ∃ m'', Ends (paste · m' (some 0) (some 1)) (m'', some 0, none) ∧
        At m'' p' [] [0, 1] [] [1, 2] := by
  have hat : At oneTwo (some 0) [] [0, 1] [] [1, 2] :=
    ⟨by decide, ⟨rfl, rfl, rfl, rfl, trivial⟩, rfl, rfl, rfl, nofun⟩
  obtain ⟨m', p', hcut, hP, -, hS, hundo⟩ :=
    (cut_paste oneTwo (some 0)).1 [0] [1] [] [1] [2] [] 1 1 hat rfl rfl rfl rfl
  have hpaste := (cut_paste m' p').2 [0] [1] [] [1] [2] [] 1 0 hP rfl rfl hS (by decide)
  exact ⟨hat, m', p', hcut, hP, hS, hundo 0 rfl, hpaste⟩

end CLangProject.DoubleList
