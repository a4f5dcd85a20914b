import Mathlib

/-!
# Neighbours on a line

Spans lie on a line, each with a start and a stop.  When any two of them are apart by more than
three quarters of a period, the ones that are at most one and a half periods apart are neighbours
(`Joins`), and chains of neighbours that are sorted by their first spans are sorted as a whole
(`pairwise_flatten`).  Merging chains from the front leaves the maximal chains (`merged_eq`).
-/

namespace PQL

structure Spans (τ : Type) where
  start : τ → ℚ
  stop : τ → ℚ
  period : ℚ
  period_pos : 0 < period

namespace Spans

variable {τ : Type} (S : Spans τ)

/-- `a` stops well before `b` starts. -/
structure Before (a b : τ) : Prop where
  left : S.start a ≤ S.stop a
  right : S.start b ≤ S.stop b
  gap : S.stop a + 3 / 4 * S.period < S.start b

/-- `b` follows one period after `a`, give or take a half. -/
structure Joins (a b : τ) : Prop where
  before : S.Before a b
  near : S.start b - S.stop a ≤ 3 / 2 * S.period

/-- `Joins`, once it is known that `a` is before `b`. -/
def near (a b : τ) : Bool := S.start b - S.stop a ≤ 3 / 2 * S.period

/-- No two of the spans overlap. -/
def Apart (l : List τ) : Prop := l.Pairwise fun a b => S.Before a b ∨ S.Before b a

variable {S} {a b c : τ} {l l' P : List τ} {parts : List (List τ)}

theorem Before.start_lt (h : S.Before a b) : S.start a < S.start b := by
  have hpos := S.period_pos
  have hleft := h.left
  have hgap := h.gap
  linarith

theorem Before.trans (hab : S.Before a b) (hbc : S.Before b c) : S.Before a c where
  left := hab.left
  right := hbc.right
  gap := hab.gap.trans hbc.start_lt

theorem Before.not_swap (h : S.Before a b) : ¬S.Before b a := fun hback =>
  lt_asymm h.start_lt hback.start_lt

/-- The order of spans that lie one before the other is the only one. -/
theorem eq_of_perm (hperm : l.Perm l') (hl : l.Pairwise S.Before) (hl' : l'.Pairwise S.Before) :
    l = l' :=
  hperm.eq_of_pairwise (fun _ _ _ _ hab hba => absurd hba hab.not_swap) hl hl'

theorem Apart.perm (h : S.Apart l) (hperm : l.Perm l') : S.Apart l' :=
  (hperm.pairwise_iff fun h => h.symm).1 h

theorem Apart.pairwise_of_sorted (h : S.Apart l)
    (hsorted : l.Pairwise fun a b => S.start a ≤ S.start b) : l.Pairwise S.Before := by
  refine h.imp₂ (fun a b hab hle => ?_) hsorted
  exact hab.resolve_right fun hback => not_lt.2 hle hback.start_lt

theorem pairwise_of_chain (h : P.IsChain S.Joins) : P.Pairwise S.Before := by
  have : IsTrans τ S.Before := ⟨fun _ _ _ => Before.trans⟩
  exact (h.imp fun _ _ hjoins => hjoins.before).pairwise

theorem start_head_le_getLast (hne : l ≠ []) (h : l.Pairwise S.Before) :
    S.start (l.head hne) ≤ S.start (l.getLast hne) := by
  obtain ⟨a, l, rfl⟩ := List.exists_cons_of_ne_nil hne
  rcases List.mem_cons.1 (List.getLast_mem hne) with heq | hmem
  · rw [heq]
    exact le_rfl
  · exact (List.rel_of_pairwise_cons h hmem).start_lt.le

/-- A chain that starts before a span lies before it: nothing fits between neighbours. -/
theorem before_of_chain (hchain : P.IsChain S.Joins) (hapart : ∀ a ∈ P, S.Before a b ∨ S.Before b a)
    (hhead : ∀ a ∈ P.head?, S.start a ≤ S.start b) : ∀ a ∈ P, S.Before a b := by
  induction P with
  | nil => exact fun a ha => absurd ha List.not_mem_nil
  | cons a P ih =>
    obtain ⟨hfirst, hrest⟩ := List.forall_mem_cons.1 hapart
    have ha : S.Before a b :=
      hfirst.resolve_right fun hback => not_lt.2 (hhead a rfl) hback.start_lt
    refine List.forall_mem_cons.2 ⟨ha, ih hchain.tail hrest fun c hc => ?_⟩
    obtain ⟨P', rfl⟩ : ∃ P', P = c :: P' := List.head?_eq_some_iff.1 hc
    have hac : S.Joins a c := (List.isChain_cons_cons.1 hchain).1
    by_contra hlt
    rcases hrest c List.mem_cons_self with hcb | hbc
    · exact hlt hcb.start_lt.le
    · -- `b` would lie between `a` and `c`
      have hnear := hac.near
      have hab := ha.gap
      have hb := ha.right
      have hc := hbc.gap
      linarith

/-- Chains in the order of their first spans. -/
theorem pairwise_flatten (hchain : ∀ P ∈ parts, P.IsChain S.Joins) (hapart : S.Apart parts.flatten)
    (hsorted : parts.Pairwise fun P Q => ∀ a ∈ P.head?, ∀ b ∈ Q.head?, S.start a ≤ S.start b) :
    parts.flatten.Pairwise S.Before := by
  induction parts with
  | nil => exact List.Pairwise.nil
  | cons P parts ih =>
    obtain ⟨hP, hchain⟩ := List.forall_mem_cons.1 hchain
    obtain ⟨hfirst, hsorted⟩ := List.pairwise_cons.1 hsorted
    rw [List.flatten_cons] at hapart ⊢
    obtain ⟨-, hapart', hacross⟩ := List.pairwise_append.1 hapart
    refine List.pairwise_append.2 ⟨pairwise_of_chain hP, ih hchain hapart' hsorted, ?_⟩
    intro a ha c hc
    obtain ⟨Q, hQ, hcQ⟩ := List.mem_flatten.1 hc
    cases Q with
    | nil => exact absurd hcQ List.not_mem_nil
    | cons q Q =>
      have hq : S.Before a q := before_of_chain hP
        (fun a ha => hacross a ha q (List.mem_flatten.2 ⟨_, hQ, List.mem_cons_self⟩))
        (fun a ha => hfirst _ hQ a ha q rfl) a ha
      rcases List.mem_cons.1 hcQ with rfl | hcQ
      · exact hq
      · exact hq.trans (List.rel_of_pairwise_cons (pairwise_of_chain (hchain _ hQ)) hcQ)

end Spans

/-! ## Merging chains -/

variable {τ : Type} (joins : τ → τ → Bool)

/-- The last of `P` joins the first of `Q`. -/
def joinsPart (P Q : List τ) : Bool :=
  match P.getLast?, Q.head? with
  | some a, some b => joins a b
  | _, _ => false

/-- Merges the parts that follow into `P`, until one does not join. -/
def mergeFront (P : List τ) : List (List τ) → List τ × List (List τ)
  | [] => (P, [])
  | Q :: parts => if joinsPart joins P Q then mergeFront (P ++ Q) parts else (P, Q :: parts)

theorem length_mergeFront_le (P : List τ) (parts : List (List τ)) :
    (mergeFront joins P parts).2.length ≤ parts.length := by
  induction parts generalizing P with
  | nil => exact le_rfl
  | cons Q parts ih =>
    rw [mergeFront]
    split_ifs
    · exact (ih _).trans (Nat.le_succ _)
    · exact le_rfl

/-- Merges the parts from the front. -/
def merged : List (List τ) → List (List τ)
  | [] => []
  | P :: parts => (mergeFront joins P parts).1 :: merged (mergeFront joins P parts).2
termination_by parts => parts.length
decreasing_by exact Nat.lt_succ_of_le (length_mergeFront_le joins P parts)

variable {joins} {P Q : List τ} {parts : List (List τ)}

theorem joinsPart_eq (hP : P ≠ []) (hQ : Q ≠ []) :
    joinsPart joins P Q = joins (P.getLast hP) (Q.head hQ) := by
  rw [joinsPart, List.getLast?_eq_some_getLast hP, List.head?_eq_some_head hQ]

/-- Parts are chains, and not empty. -/
def AreChains (joins : τ → τ → Bool) (parts : List (List τ)) : Prop :=
  ∀ P ∈ parts, P ≠ [] ∧ P.IsChain fun a b => joins a b

theorem mergeFront_spec (hparts : AreChains joins (P :: parts)) :
    AreChains joins ((mergeFront joins P parts).1 :: (mergeFront joins P parts).2) ∧
      (mergeFront joins P parts).1 ++ (mergeFront joins P parts).2.flatten = P ++ parts.flatten ∧
      ∀ Q ∈ (mergeFront joins P parts).2.head?,
        joinsPart joins (mergeFront joins P parts).1 Q = false := by
  induction parts generalizing P with
  | nil => exact ⟨hparts, rfl, fun Q hQ => absurd hQ (by simp [mergeFront])⟩
  | cons Q parts ih =>
    obtain ⟨⟨hPne, hP⟩, hrest⟩ := List.forall_mem_cons.1 hparts
    obtain ⟨⟨hQne, hQ⟩, hparts'⟩ := List.forall_mem_cons.1 hrest
    rw [mergeFront]
    split_ifs with hjoins
    · have hPQ : (P ++ Q).IsChain fun a b => joins a b := by
        refine hP.append hQ fun a ha b hb => ?_
        rw [joinsPart, Option.mem_def.1 ha, Option.mem_def.1 hb] at hjoins
        exact hjoins
      obtain ⟨hchains, hflatten, hhead⟩ := ih (P := P ++ Q) (List.forall_mem_cons.2
        ⟨⟨List.append_ne_nil_of_left_ne_nil hPne Q, hPQ⟩, hparts'⟩)
      exact ⟨hchains, by rw [hflatten, List.flatten_cons, List.append_assoc], hhead⟩
    · refine ⟨hparts, rfl, fun Q' hQ' => ?_⟩
      obtain rfl : Q = Q' := Option.some.inj hQ'
      simpa using hjoins

theorem merged_cons : merged joins (P :: parts) =
    (mergeFront joins P parts).1 :: merged joins (mergeFront joins P parts).2 := by
  rw [merged]

theorem head_mergeFront (hP : P ≠ []) : (mergeFront joins P parts).1.head? = P.head? := by
  induction parts generalizing P with
  | nil => rfl
  | cons Q parts ih =>
    rw [mergeFront]
    split_ifs
    · rw [ih (List.append_ne_nil_of_left_ne_nil hP Q), List.head?_append_of_ne_nil _ hP]
    · rfl

/-- Merging chains from the front leaves the maximal chains of the whole. -/
theorem merged_eq (hparts : AreChains joins parts) :
    merged joins parts = parts.flatten.splitBy joins := by
  have hmerged : AreChains joins (merged joins parts) ∧
      (merged joins parts).flatten = parts.flatten ∧
      (merged joins parts).IsChain
        (fun P Q => ∃ hP hQ, joins (P.getLast hP) (Q.head hQ) = false) ∧
      (merged joins parts).head?.bind List.head? = parts.head?.bind List.head? := by
    induction parts using merged.induct joins with
    | case1 =>
      rw [merged]
      exact ⟨hparts, rfl, List.isChain_nil, rfl⟩
    | case2 P parts ih =>
      obtain ⟨hchains, hflatten, hhead⟩ := mergeFront_spec hparts
      obtain ⟨hfront, hbehind⟩ := List.forall_mem_cons.1 hchains
      obtain ⟨ihchains, ihflatten, ihjoins, ihhead⟩ := ih hbehind
      rw [merged_cons]
      refine ⟨List.forall_mem_cons.2 ⟨hfront, ihchains⟩, ?_, ?_, ?_⟩
      · rw [List.flatten_cons, ihflatten, hflatten, List.flatten_cons]
      · refine List.isChain_cons.2 ⟨fun Q hQ => ?_, ihjoins⟩
        rw [Option.mem_def.1 hQ, Option.bind_some] at ihhead
        obtain ⟨hQne, -⟩ := ihchains Q (List.mem_of_mem_head? hQ)
        obtain ⟨Q', hQ', hsame⟩ :=
          Option.bind_eq_some_iff.1 (ihhead.symm.trans (List.head?_eq_some_head hQne))
        have hnot := hhead Q' hQ'
        rw [joinsPart, hsame, List.getLast?_eq_some_getLast hfront.1] at hnot
        exact ⟨hfront.1, hQne, hnot⟩
      · exact head_mergeFront (List.forall_mem_cons.1 hparts).1.1
  obtain ⟨hchains, hflatten, hjoins, -⟩ := hmerged
  rw [← hflatten, List.splitBy_flatten (fun hnil => (hchains [] hnil).1 rfl)
    (fun P hP => (hchains P hP).2) hjoins]

end PQL
