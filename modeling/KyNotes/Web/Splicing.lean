import KyNotes.Web.Recurrence
import Mathlib.Data.List.Sort

/-!
# Edits of inline content (`web/src/taskDates.ts`)

`rewrite` walks the nodes with a place in the joined text and asks every edit at every place. `splice` is what the edits are
of the text alone: from the first to the last, each puts its text in the place of its range.

`rewrite_splices`: the joined text of the result is the text with the edits spliced in, and the nodes are those of the
content with what is left of their characters; the nodes that no character is left of are gone.
-/

namespace KyNotes.Web

/-- The text from a place on with edits, in their order. -/
def spliceFrom (s : JsString) : ℕ → List RangeEdit → JsString
  | i, [] => s.drop i
  | i, e :: edits => (s.drop i).take (e.start - i) ++ (e.text ++ spliceFrom s (max i e.stop) edits)

/-- The text with the edits spliced in, from the first place to the last; at one place they keep their order. -/
def splice (s : JsString) (edits : List RangeEdit) : JsString :=
  spliceFrom s 0 (edits.mergeSort fun e e' => e.start ≤ e'.start)

/-- A range of a text of some length. -/
def RangeEdit.Within (length : ℕ) (e : RangeEdit) : Prop := e.start ≤ e.stop ∧ e.stop ≤ length

/-- One range ends before the other begins. -/
def RangeEdit.Apart (e e' : RangeEdit) : Prop := e.stop ≤ e'.start ∨ e'.stop ≤ e.start

theorem RangeEdit.Apart.symm {e e' : RangeEdit} (h : e.Apart e') : e'.Apart e := h.elim .inr .inl

/-! ## Places -/

section Places

variable {e : RangeEdit} {edits : List RangeEdit}

theorem insertedAt_cons (e : RangeEdit) (edits : List RangeEdit) (i : ℕ) :
    insertedAt (e :: edits) i = (if e.start = i then e.text else []) ++ insertedAt edits i := by
  unfold insertedAt
  by_cases h : e.start = i
  · simp [h]
  · simp [h]

theorem insertedAt_eq_nil {i : ℕ} (h : ∀ e ∈ edits, e.start ≠ i) : insertedAt edits i = [] := by
  unfold insertedAt
  have hnone : edits.filter (·.start = i) = [] := List.filter_eq_nil_iff.mpr fun e he => by simpa using h e he
  rw [hnone]
  rfl

/-- An edit that is over changes nothing from there on. -/
theorem rewriteChars_over : ∀ (i : ℕ) (s : JsString), e.start < i → e.stop ≤ i →
    rewriteChars (e :: edits) i s = rewriteChars edits i s
  | _, [], _, _ => rfl
  | i, c :: s, hstart, hstop => by
    have hcovers : (e.start ≤ i && i < e.stop) = false := by simp; omega
    rw [rewriteChars, rewriteChars, insertedAt_cons, if_neg (by omega), List.nil_append, List.any_cons, hcovers, Bool.false_or,
      rewriteChars_over (i + 1) s (by omega) (by omega)]

/-- Before all edits nothing changes. -/
theorem rewriteChars_before : ∀ (i : ℕ) (s : JsString), (∀ e ∈ edits, i + s.length ≤ e.start) → rewriteChars edits i s = s
  | _, [], _ => rfl
  | i, c :: s, h => by
    have hcovers : edits.any (fun e => e.start ≤ i && i < e.stop) = false := by
      rw [List.any_eq_false]
      intro e he
      have := h e he
      simp only [List.length_cons] at this
      simp
      omega
    have hinserted : insertedAt edits i = [] := insertedAt_eq_nil fun e he => by
      have := h e he
      simp only [List.length_cons] at this
      omega
    have hrest : ∀ e ∈ edits, i + 1 + s.length ≤ e.start := fun e he => by
      have := h e he
      simp only [List.length_cons] at this
      omega
    rw [rewriteChars, hinserted, hcovers, rewriteChars_before (i + 1) s hrest]
    rfl

/-- In the range of an edit nothing is left of the text. -/
theorem rewriteChars_covered : ∀ (i : ℕ) (s : JsString), e.start ≤ i → i + s.length ≤ e.stop →
    (∀ e' ∈ e :: edits, ∀ j, i ≤ j → j < i + s.length → e'.start ≠ j) → rewriteChars (e :: edits) i s = []
  | _, [], _, _, _ => rfl
  | i, c :: s, hstart, hstop, hnone => by
    rw [List.length_cons] at hstop hnone
    have hcovers : (e :: edits).any (fun e => e.start ≤ i && i < e.stop) = true := by
      rw [List.any_cons]
      simp
      omega
    have hrest : ∀ e' ∈ e :: edits, ∀ j, i + 1 ≤ j → j < i + 1 + s.length → e'.start ≠ j := fun e' he' j hj hj' =>
      hnone e' he' j (by omega) (by omega)
    rw [rewriteChars, insertedAt_eq_nil fun e' he' => hnone e' he' i (Nat.le_refl i) (by omega), if_pos hcovers,
      rewriteChars_covered (i + 1) s (by omega) (by omega) hrest]
    rfl

end Places

/-! ## The splice -/

/-- The texts of the edits that begin before a place. -/
def begunBefore (edits : List RangeEdit) (i : ℕ) : JsString := (edits.filter (·.start < i)).flatMap (·.text)

theorem begunBefore_cons (e : RangeEdit) (edits : List RangeEdit) (i : ℕ) :
    begunBefore (e :: edits) i = (if e.start < i then e.text else []) ++ begunBefore edits i := by
  unfold begunBefore
  by_cases h : e.start < i
  · simp [h]
  · simp [h]

theorem begunBefore_eq_nil {edits : List RangeEdit} {i : ℕ} (h : ∀ e ∈ edits, i ≤ e.start) : begunBefore edits i = [] := by
  unfold begunBefore
  have hnone : edits.filter (·.start < i) = [] := List.filter_eq_nil_iff.mpr fun e he => by simpa using h e he
  rw [hnone]
  rfl

section Edit

variable (s : JsString) {e : RangeEdit} {edits : List RangeEdit}

/-- An edit that replaces nothing. -/
theorem edit_eq_insert (hempty : e.start = e.stop) (hlength : e.stop ≤ s.length) (hafter : ∀ e' ∈ edits, e.start ≤ e'.start) :
    e.text ++ (begunBefore edits e.stop ++ (rewriteChars edits e.stop (s.drop e.stop) ++ insertedAt edits s.length)) =
      rewriteChars (e :: edits) e.start (s.drop e.start) ++ ((if e.start = s.length then e.text else []) ++
        insertedAt edits s.length) := by
  have hnone : begunBefore edits e.stop = [] := begunBefore_eq_nil fun e' he' => hempty ▸ hafter e' he'
  rw [hnone, List.nil_append, ← hempty]
  cases hdrop : s.drop e.start with
  | nil =>
    have hend : e.start = s.length := by
      have := congrArg List.length hdrop
      rw [List.length_drop, List.length_nil] at this
      omega
    rw [if_pos hend]
    rfl
  | cons c t =>
    have hend : e.start ≠ s.length := by
      have := congrArg List.length hdrop
      rw [List.length_drop, List.length_cons] at this
      omega
    have hcovers : (e.start ≤ e.start && e.start < e.stop) = false := by simp; omega
    have hright : rewriteChars (e :: edits) e.start (c :: t) = insertedAt (e :: edits) e.start ++
      ((if (e :: edits).any (fun e' => e'.start ≤ e.start && e.start < e'.stop) then [] else [c]) ++
        rewriteChars (e :: edits) (e.start + 1) t) := rfl
    have hleft : rewriteChars edits e.start (c :: t) = insertedAt edits e.start ++
      ((if edits.any (fun e' => e'.start ≤ e.start && e.start < e'.stop) then [] else [c]) ++
        rewriteChars edits (e.start + 1) t) := rfl
    rw [hright, hleft, insertedAt_cons, if_pos rfl, List.any_cons, hcovers, Bool.false_or, if_neg hend,
      rewriteChars_over (e.start + 1) t (Nat.lt_succ_self _) (by omega)]
    simp only [List.append_assoc, List.nil_append]

/-- An edit that replaces a range: its characters go, and what is inserted at its place stays. -/
theorem edit_eq_replace (hrange : e.start < e.stop) (hlength : e.stop ≤ s.length)
    (hplace : ∀ e' ∈ edits, (e'.start < e.stop ↔ e'.start = e.start)) :
    e.text ++ (begunBefore edits e.stop ++ (rewriteChars edits e.stop (s.drop e.stop) ++ insertedAt edits s.length)) =
      rewriteChars (e :: edits) e.start (s.drop e.start) ++ ((if e.start = s.length then e.text else []) ++
        insertedAt edits s.length) := by
  have hend : e.start ≠ s.length := by omega
  obtain ⟨c, t, hseg⟩ : ∃ c t, (s.drop e.start).take (e.stop - e.start) = c :: t := List.exists_cons_of_length_pos (by
    rw [List.length_take, List.length_drop]
    omega)
  have hlen : (c :: t).length = e.stop - e.start := by
    rw [← hseg, List.length_take, List.length_drop]
    omega
  have hdrop : s.drop e.start = c :: t ++ s.drop e.stop := by
    have hsplit := List.take_append_drop (e.stop - e.start) (s.drop e.start)
    rw [List.drop_drop, Nat.add_sub_cancel' hrange.le, hseg] at hsplit
    exact hsplit.symm
  have hbegun : begunBefore edits e.stop = insertedAt edits e.start := by
    unfold begunBefore insertedAt
    congr 1
    exact List.filter_congr fun e' he' => by rw [decide_eq_decide]; exact hplace e' he'
  have hcovers : (e :: edits).any (fun e' => e'.start ≤ e.start && e.start < e'.stop) = true := by
    rw [List.any_cons]
    simp
    omega
  have hnone : ∀ e' ∈ e :: edits, ∀ j, e.start + 1 ≤ j → j < e.start + 1 + t.length → e'.start ≠ j := by
    rw [List.length_cons] at hlen
    refine List.forall_mem_cons.mpr ⟨fun j hj _ => by omega, fun e' he' j hj hj' heq => ?_⟩
    have := (hplace e' he').mp (by omega)
    omega
  have hfirst : rewriteChars (e :: edits) e.start (c :: t) = insertedAt (e :: edits) e.start ++
      ((if (e :: edits).any (fun e' => e'.start ≤ e.start && e.start < e'.stop) then [] else [c]) ++
        rewriteChars (e :: edits) (e.start + 1) t) := rfl
  rw [List.length_cons] at hlen
  rw [hdrop, rewriteChars_append, hfirst, hcovers, if_pos rfl, insertedAt_cons, if_pos rfl,
    rewriteChars_covered (e.start + 1) t (by omega) (by omega) hnone, List.length_cons, hlen, Nat.add_sub_cancel' hrange.le,
    rewriteChars_over e.stop _ hrange (Nat.le_refl _), hbegun, if_neg hend]
  simp only [List.append_assoc, List.nil_append]

/-- From the place of an edit on: its text, those of the edits at the same place, and what comes after its range. -/
theorem edit_eq (hle : e.start ≤ e.stop) (hlength : e.stop ≤ s.length) (hwithin : ∀ e' ∈ edits, e'.Within s.length)
    (hafter : ∀ e' ∈ edits, e.start ≤ e'.start ∧ e.Apart e') :
    e.text ++ (begunBefore edits e.stop ++ (rewriteChars edits e.stop (s.drop e.stop) ++ insertedAt edits s.length)) =
      rewriteChars (e :: edits) e.start (s.drop e.start) ++ ((if e.start = s.length then e.text else []) ++
        insertedAt edits s.length) := by
  rcases Nat.eq_or_lt_of_le hle with hempty | hrange
  · exact edit_eq_insert s hempty hlength fun e' he' => (hafter e' he').1
  · refine edit_eq_replace s hrange hlength fun e' he' => ?_
    have hle' := (hwithin e' he').1
    obtain ⟨hstart, hapart | hapart⟩ := hafter e' he' <;> omega

end Edit

/-- In the order of their places edits are spliced in as they are asked place by place. -/
theorem spliceFrom_eq (s : JsString) : ∀ (edits : List RangeEdit) (i : ℕ), i ≤ s.length →
    (∀ e ∈ edits, e.Within s.length) → edits.Pairwise (fun e e' => e.start ≤ e'.start ∧ e.Apart e') →
    (∀ e ∈ edits, e.start < i → e.stop ≤ i) →
    spliceFrom s i edits = begunBefore edits i ++ (rewriteChars edits i (s.drop i) ++ insertedAt edits s.length)
  | [], i, _, _, _, _ => by
    have hnothing : rewriteChars [] i (s.drop i) = s.drop i := rewriteChars_before i (s.drop i) (List.forall_mem_nil _)
    rw [spliceFrom, hnothing]
    exact (List.append_nil _).symm
  | e :: edits, i, hi, hwithin, hsorted, hover => by
    rw [List.forall_mem_cons] at hwithin hover
    obtain ⟨⟨hle, hlength⟩, hwithin⟩ := hwithin
    rw [List.pairwise_cons] at hsorted
    obtain ⟨hafter, hsorted⟩ := hsorted
    rw [spliceFrom, begunBefore_cons, insertedAt_cons]
    by_cases hbegun : e.start < i
    · -- the edit is over
      have hstop : e.stop ≤ i := hover.1 hbegun
      have hbefore : e.start - i = 0 := by omega
      have hend : e.start ≠ s.length := by omega
      rw [hbefore, List.take_zero, List.nil_append, max_eq_left hstop, if_pos hbegun, if_neg hend, List.nil_append,
        rewriteChars_over i _ hbegun hstop, spliceFrom_eq s edits i hi hwithin hsorted hover.2, List.append_assoc]
    · have hnone : ∀ e' ∈ edits, i ≤ e'.start := fun e' he' => by have := (hafter e' he').1; omega
      have hnext : ∀ e' ∈ edits, e'.start < e.stop → e'.stop ≤ e.stop := fun e' he' hlt => by
        rcases (hafter e' he').2 with h | h
        · omega
        · omega
      have hdrop : s.drop i = (s.drop i).take (e.start - i) ++ s.drop e.start := by
        have hsplit := List.take_append_drop (e.start - i) (s.drop i)
        rw [List.drop_drop, Nat.add_sub_cancel' (by omega)] at hsplit
        exact hsplit.symm
      have htake : ((s.drop i).take (e.start - i)).length = e.start - i := by
        rw [List.length_take, List.length_drop]
        omega
      have hunchanged : rewriteChars (e :: edits) i ((s.drop i).take (e.start - i)) = (s.drop i).take (e.start - i) := by
        refine rewriteChars_before i _ (List.forall_mem_cons.mpr ⟨by omega, fun e' he' => ?_⟩)
        have := (hafter e' he').1
        omega
      have hrest : rewriteChars (e :: edits) i (s.drop i) =
          (s.drop i).take (e.start - i) ++ rewriteChars (e :: edits) e.start (s.drop e.start) := by
        have happend := rewriteChars_append (e :: edits) (s.drop e.start) i ((s.drop i).take (e.start - i))
        rw [← hdrop, hunchanged, htake, Nat.add_sub_cancel' (by omega)] at happend
        exact happend
      have hedit : e.text ++ (begunBefore edits e.stop ++ (rewriteChars edits e.stop (s.drop e.stop) ++ insertedAt edits s.length)) =
          rewriteChars (e :: edits) e.start (s.drop e.start) ++ ((if e.start = s.length then e.text else []) ++
            insertedAt edits s.length) := edit_eq s hle hlength hwithin hafter
      rw [max_eq_right (by omega), if_neg hbegun, List.nil_append, begunBefore_eq_nil hnone, List.nil_append, hrest,
        List.append_assoc, ← hedit, spliceFrom_eq s edits e.stop hlength hwithin hsorted hnext]

theorem startLe_trans (e e' e'' : RangeEdit) (h : decide (e.start ≤ e'.start) = true)
    (h' : decide (e'.start ≤ e''.start) = true) : decide (e.start ≤ e''.start) = true :=
  decide_eq_true (Nat.le_trans (of_decide_eq_true h) (of_decide_eq_true h'))

theorem startLe_total (e e' : RangeEdit) : (decide (e.start ≤ e'.start) || decide (e'.start ≤ e.start)) = true := by
  rcases Nat.le_total e.start e'.start with h | h <;> simp [h]

/-- Sorting the edits keeps the order of those at one place. -/
theorem filter_sorted (edits : List RangeEdit) (i : ℕ) :
    (edits.mergeSort fun e e' => e.start ≤ e'.start).filter (·.start = i) = edits.filter (·.start = i) := by
  have hequal : (edits.filter (·.start = i)).Pairwise fun e e' => decide (e.start ≤ e'.start) = true := by
    refine List.pairwise_of_forall_mem_list fun e he e' he' => ?_
    have hstart := of_decide_eq_true (List.mem_filter.mp he).2
    have hstart' := of_decide_eq_true (List.mem_filter.mp he').2
    exact decide_eq_true (hstart.trans hstart'.symm).le
  have hsub := (List.sublist_mergeSort startLe_trans startLe_total hequal List.filter_sublist).filter (·.start = i)
  rw [List.filter_filter] at hsub
  simp only [Bool.and_self] at hsub
  have hlength : ((edits.mergeSort fun e e' => e.start ≤ e'.start).filter (·.start = i)).length =
      (edits.filter (·.start = i)).length := ((List.mergeSort_perm edits _).filter _).length_eq
  exact (hsub.eq_of_length hlength.symm).symm

theorem rewriteChars_congr {edits edits' : List RangeEdit} (hinserted : ∀ i, insertedAt edits i = insertedAt edits' i)
    (hcovers : ∀ i, edits.any (fun e => e.start ≤ i && i < e.stop) = edits'.any fun e => e.start ≤ i && i < e.stop) :
    ∀ (i : ℕ) (s : JsString), rewriteChars edits i s = rewriteChars edits' i s
  | _, [] => rfl
  | i, c :: s => by rw [rewriteChars, rewriteChars, hinserted, hcovers, rewriteChars_congr hinserted hcovers (i + 1) s]

/-- Edits that are apart are spliced in as they are asked place by place. -/
theorem splice_eq {s : JsString} {edits : List RangeEdit} (hwithin : ∀ e ∈ edits, e.Within s.length)
    (hapart : edits.Pairwise RangeEdit.Apart) :
    splice s edits = rewriteChars edits 0 s ++ insertedAt edits s.length := by
  have hperm : (edits.mergeSort fun e e' => e.start ≤ e'.start).Perm edits := List.mergeSort_perm edits _
  have hsorted : (edits.mergeSort fun e e' => e.start ≤ e'.start).Pairwise fun e e' => e.start ≤ e'.start := by
    exact (List.pairwise_mergeSort startLe_trans startLe_total edits).imp of_decide_eq_true
  have hboth := hsorted.and (hperm.symm.pairwise hapart fun h => h.symm)
  have hinserted : ∀ i, insertedAt (edits.mergeSort fun e e' => e.start ≤ e'.start) i = insertedAt edits i := fun i => by
    unfold insertedAt
    rw [filter_sorted]
  have hbegun : begunBefore (edits.mergeSort fun e e' => e.start ≤ e'.start) 0 = [] :=
    begunBefore_eq_nil fun e _ => Nat.zero_le _
  rw [splice, spliceFrom_eq s _ 0 (Nat.zero_le _) (fun e he => hwithin e (hperm.mem_iff.mp he)) hboth
    fun e _ h => absurd h (Nat.not_lt_zero _), hbegun, List.nil_append, List.drop_zero, hinserted,
    rewriteChars_congr hinserted fun i => hperm.any_eq]

/-! ## The nodes -/

section Nodes

variable {ρ : Type}

/-- Node by node the edits are made as over the whole text; the last text takes what is inserted at its end. -/
theorem textOf_rewriteNodes_eq (edits : List RangeEdit) : ∀ (offset : ℕ) (nodes : List (InlineNode ρ)),
    textOf (rewriteNodes edits offset nodes) = rewriteChars edits offset (textOf nodes) ++
      (if nodes.any (·.text.isSome) then insertedAt edits (offset + (textOf nodes).length) else [])
  | _, [] => rfl
  | offset, node :: nodes => by
    rw [rewriteNodes, textOf_cons]
    cases hs : node.text with
    | none =>
      rw [textOf_cons, hs, textOf_rewriteNodes_eq edits offset nodes, List.any_cons, hs]
      rfl
    | some t =>
      rw [textOf_cons, textOf_rewriteNodes_eq edits _ nodes, Option.getD_some, Option.getD_some, rewriteChars_append, List.any_cons, hs, Option.isSome_some,
        Bool.true_or, if_pos rfl, List.length_append]
      by_cases hlast : nodes.any (·.text.isSome) = true
      · rw [if_pos hlast, if_pos hlast, List.append_nil, List.append_assoc, Nat.add_assoc]
      · have hempty : textOf nodes = [] := by
          refine List.flatMap_eq_nil_iff.mpr fun node hnode => ?_
          have hnone : node.text = none :=
            Option.not_isSome_iff_eq_none.mp fun hsome => hlast (List.any_eq_true.mpr ⟨node, hnode, hsome⟩)
          rw [hnone]
          rfl
        rw [if_neg hlast, if_neg hlast, hempty]
        simp [rewriteChars]

/-- A node with another text. -/
def SameNode (node node' : InlineNode ρ) : Prop := node'.rest = node.rest ∧ node'.text.isSome = node.text.isSome

theorem rewriteNodes_same (edits : List RangeEdit) : ∀ (offset : ℕ) (nodes : List (InlineNode ρ)),
    List.Forall₂ SameNode nodes (rewriteNodes edits offset nodes)
  | _, [] => .nil
  | offset, node :: nodes => by
    rw [rewriteNodes]
    cases hs : node.text with
    | none => exact .cons ⟨rfl, rfl⟩ (rewriteNodes_same edits offset nodes)
    | some t => exact .cons ⟨rfl, by rw [hs]; rfl⟩ (rewriteNodes_same edits _ nodes)

/-- The characters of a text that no edit takes away. -/
def uncovered (edits : List RangeEdit) : ℕ → JsString → JsString
  | _, [] => []
  | i, c :: s => (if edits.any (fun e => e.start ≤ i && i < e.stop) then [] else [c]) ++ uncovered edits (i + 1) s

theorem uncovered_sublist (edits : List RangeEdit) : ∀ (i : ℕ) (s : JsString),
    (uncovered edits i s).Sublist (rewriteChars edits i s)
  | _, [] => .slnil
  | i, _ :: s => ((List.Sublist.refl _).append (uncovered_sublist edits (i + 1) s)).trans (List.sublist_append_right _ _)

/-- The characters that no edit takes away, each with what its node has beside the text. -/
def survivors (edits : List RangeEdit) : ℕ → List (InlineNode ρ) → List (UInt16 × ρ)
  | _, [] => []
  | offset, node :: nodes =>
    (uncovered edits offset (node.text.getD [])).map (fun c => (c, node.rest)) ++
      survivors edits (offset + (node.text.getD []).length) nodes

/-- The characters of nodes, each with what its node has beside the text. -/
def styled (nodes : List (InlineNode ρ)) : List (UInt16 × ρ) :=
  nodes.flatMap fun node => (node.text.getD []).map fun c => (c, node.rest)

theorem styled_cons (node : InlineNode ρ) (nodes : List (InlineNode ρ)) :
    styled (node :: nodes) = (node.text.getD []).map (fun c => (c, node.rest)) ++ styled nodes := List.flatMap_cons

theorem survivors_sublist (edits : List RangeEdit) : ∀ (offset : ℕ) (nodes : List (InlineNode ρ)),
    (survivors edits offset nodes).Sublist (styled (rewriteNodes edits offset nodes))
  | _, [] => .slnil
  | offset, node :: nodes => by
    rw [survivors, rewriteNodes]
    cases hs : node.text with
    | none =>
      rw [styled_cons, hs]
      exact survivors_sublist edits offset nodes
    | some t =>
      rw [styled_cons, Option.getD_some, Option.getD_some]
      refine List.Sublist.append ?_ (survivors_sublist edits _ nodes)
      exact ((uncovered_sublist edits offset t).trans (List.sublist_append_left _ _)).map fun c => (c, node.rest)

theorem styled_filter (nodes : List (InlineNode ρ)) : styled (nodes.filter fun node => node.text != some []) = styled nodes := by
  induction nodes with
  | nil => rfl
  | cons node nodes ih =>
    rw [List.filter_cons, styled_cons]
    split
    · rw [styled_cons, ih]
    · next h =>
      have hempty : node.text = some [] := by simpa using h
      rw [ih, hempty]
      rfl

/-- The edits are spliced into the joined text. The nodes keep their order and what they have beside the text, and so does
each character that no edit takes away; a node whose text is left empty is dropped, and no other. -/
theorem rewrite_splices (content : List (InlineNode ρ)) (edits : List RangeEdit)
    (htext : content.any (·.text.isSome) = true) (hwithin : ∀ e ∈ edits, e.Within (textOf content).length)
    (hapart : edits.Pairwise RangeEdit.Apart) :
    textOf (rewrite content edits) = splice (textOf content) edits ∧
    (∃ nodes, List.Forall₂ SameNode content nodes ∧
      rewrite content edits = nodes.filter fun node => node.text != some []) ∧
    (survivors edits 0 content).Sublist (styled (rewrite content edits)) := by
  refine ⟨?_, ⟨rewriteNodes edits 0 content, rewriteNodes_same edits 0 content, rfl⟩, ?_⟩
  · rw [splice_eq hwithin hapart, rewrite, textOf_filter, textOf_rewriteNodes_eq, if_pos htext, Nat.zero_add]
  · rw [rewrite, styled_filter]
    exact survivors_sublist edits 0 content

/-- An edit over the boundary of two nodes, and an insertion at the end. -/
theorem rewrite_splices_boundary :
    let content : List (InlineNode ℕ) := [⟨some [97, 98], 1⟩, ⟨none, 2⟩, ⟨some [99, 100], 3⟩]
    let edits : List RangeEdit := [⟨4, 4, [122]⟩, ⟨1, 3, [120, 121]⟩]
    textOf (rewrite content edits) = splice (textOf content) edits ∧
    (∃ nodes, List.Forall₂ SameNode content nodes ∧
      rewrite content edits = nodes.filter fun node => node.text != some []) ∧
    (survivors edits 0 content).Sublist (styled (rewrite content edits)) := by
  intro content edits
  refine rewrite_splices content edits rfl (fun e he => ?_) ?_
  · rcases List.mem_cons.mp he with rfl | he
    · exact ⟨by decide, by decide⟩
    · rw [List.mem_singleton.mp he]
      exact ⟨by decide, by decide⟩
  · exact List.pairwise_pair.mpr (.inr (by decide))

/-- A text that an edit takes away whole goes with its style. -/
theorem rewrite_drops_style : ¬∀ (content : List (InlineNode ℕ)) (edits : List RangeEdit),
    content.any (·.text.isSome) = true → (∀ e ∈ edits, e.Within (textOf content).length) → edits.Pairwise RangeEdit.Apart →
    (rewrite content edits).map (·.rest) = content.map (·.rest) := by
  intro h
  have hdropped := h [⟨some [97, 98], 1⟩, ⟨some [99], 2⟩] [⟨0, 2, []⟩] rfl
    (List.forall_mem_singleton.mpr ⟨by decide, by decide⟩) (List.pairwise_singleton ..)
  exact absurd hdropped (by decide)

end Nodes

end KyNotes.Web
