import Rover.Proofs.Cursor
import Rover.Proofs.Grammar.Complaints

/-!
What a rejected source reports: errors in the order of the source, every illegal token once and with
its own text, and no error twice, apart from two about blocks that do not close and braces that
close nothing.
-/

namespace Rover

theorem Complaints.pos {token : Token} {group : List Diagnostic}
    (complaints : Complaints token group)
    {issue : Diagnostic} (member : issue ∈ group) : issue.pos = token.pos := by
  cases complaints with
  | nothing => cases member
  | illegal | refused =>
      rw [List.mem_singleton.mp member]
  | stray message =>
      rcases List.mem_cons.mp member with rfl | isStray
      · rfl
      · rw [List.mem_singleton.mp isStray]
        rfl
  | unclosed message more =>
      rcases List.mem_cons.mp member with rfl | isUnclosed
      · rfl
      · rw [List.eq_of_mem_replicate isUnclosed]
        rfl

theorem Complaints.of_illegal {token : Token} {group : List Diagnostic}
    (complaints : Complaints token group) (isIllegal : token.kind = .illegal) :
    group = [⟨token.text, token.pos⟩] := by
  cases complaints with
  | nothing legal | refused _ legal => exact absurd isIllegal legal
  | illegal => rfl
  | stray _ kind | unclosed _ _ kind => cases isIllegal.symm.trans kind

theorem Complaints.repeated {token : Token} {group : List Diagnostic} {issue : Diagnostic}
    (complaints : Complaints token group) (again : 1 < group.count issue) :
    (token.kind = .eof ∧ issue = .unclosed token.pos) ∨
      (token.kind = .rightBrace ∧ issue = .stray token.pos ∧ group.count issue = 2) := by
  have behind {head : Diagnostic} {tail : List Diagnostic}
      (again : 1 < (head :: tail).count issue) :
      issue ∈ tail := by
    by_contra absent
    rw [← List.singleton_append, List.count_append, List.count_eq_zero.mpr absent,
      Nat.add_zero] at again
    exact absurd again (Nat.not_lt.mpr List.count_le_length)
  cases complaints with
  | nothing => cases again
  | illegal | refused => cases behind again
  | stray message isBrace =>
      exact .inr ⟨isBrace, List.mem_singleton.mp (behind again),
        Nat.le_antisymm List.count_le_length again⟩
  | unclosed message more ends => exact .inl ⟨ends, List.eq_of_mem_replicate (behind again)⟩

def Diagnostic.Ordered (first second : Diagnostic) : Prop :=
  first.pos = second.pos ∨ first.pos.Before second.pos

def Diagnostic.atIllegal (tokens : List Token) (issue : Diagnostic) : Bool :=
  tokens.any fun token => token.kind = .illegal ∧ token.pos = issue.pos

section Groups

variable {tokens : List Token} {groups : List (List Diagnostic)} {issue : Diagnostic}

theorem complaints_placed (complaints : List.Forall₂ Complaints tokens groups)
    (member : issue ∈ groups.flatten) : ∃ token ∈ tokens, issue.pos = token.pos := by
  induction complaints with
  | nil => cases member
  | @cons token group tokens groups about others ih =>
      rcases List.mem_append.mp member with here | later
      · exact ⟨token, List.mem_cons_self, about.pos here⟩
      · obtain ⟨other, belongs, place⟩ := ih later
        exact ⟨other, List.mem_cons_of_mem token belongs, place⟩

theorem complaints_ordered (complaints : List.Forall₂ Complaints tokens groups)
    (places : tokens.Pairwise fun first second => first.pos.Before second.pos) :
    groups.flatten.Pairwise Diagnostic.Ordered := by
  induction complaints with
  | nil => exact .nil
  | @cons token group tokens groups about others ih =>
      obtain ⟨first, later⟩ := List.pairwise_cons.mp places
      rw [List.flatten_cons, List.pairwise_append]
      refine ⟨List.pairwise_of_forall_mem_list fun one member two memberToo => ?_, ih later,
        fun one member two memberToo => ?_⟩
      · exact .inl ((about.pos member).trans (about.pos memberToo).symm)
      · obtain ⟨other, inside, place⟩ := complaints_placed others memberToo
        rw [Diagnostic.Ordered, about.pos member, place]
        exact .inr (first other inside)

theorem complaints_illegal (complaints : List.Forall₂ Complaints tokens groups)
    {located : Diagnostic → Bool} (decides : ∀ token ∈ tokens, ∀ issue : Diagnostic,
      issue.pos = token.pos → located issue = decide (token.kind = .illegal)) :
    groups.flatten.filter located =
      (tokens.filter fun token => token.kind = .illegal).map fun token =>
        ⟨token.text, token.pos⟩ := by
  induction complaints with
  | nil => rfl
  | @cons token group tokens groups about others ih =>
      have here (issue : Diagnostic) (member : issue ∈ group) :
          located issue = decide (token.kind = .illegal) :=
        decides token List.mem_cons_self issue (about.pos member)
      rw [List.flatten_cons, List.filter_append,
        ih fun other member => decides other (List.mem_cons_of_mem token member),
        List.filter_cons, List.filter_congr here]
      by_cases isIllegal : token.kind = .illegal
      · simp [isIllegal, about.of_illegal isIllegal]
      · simp [isIllegal]

/-- What is said more than once is said of one token. -/
theorem complaints_count (complaints : List.Forall₂ Complaints tokens groups)
    (places : (tokens.map Token.pos).Nodup) (member : issue ∈ groups.flatten) :
    ∃ token ∈ tokens, ∃ group, Complaints token group ∧
      groups.flatten.count issue = group.count issue := by
  induction complaints with
  | nil => cases member
  | @cons token group tokens groups about others ih =>
      obtain ⟨apart, later⟩ := List.nodup_cons.mp places
      rw [List.flatten_cons, List.count_append]
      by_cases here : issue ∈ group
      · have elsewhere : issue ∉ groups.flatten := fun inside => by
          obtain ⟨other, belongs, place⟩ := complaints_placed others inside
          exact apart ((about.pos here).symm.trans place ▸ List.mem_map_of_mem belongs)
        exact ⟨token, List.mem_cons_self, group, about, by
          rw [List.count_eq_zero.mpr elsewhere, Nat.add_zero]⟩
      · have inside := (List.mem_append.mp member).resolve_left here
        obtain ⟨other, belongs, group', aboutOther, same⟩ := ih later inside
        exact ⟨other, List.mem_cons_of_mem token belongs, group', aboutOther, by
          rw [List.count_eq_zero.mpr here, Nat.zero_add, same]⟩

end Groups

theorem atIllegal_iff {tokens : List Token} (places : (tokens.map Token.pos).Nodup) {token : Token}
    (member : token ∈ tokens) {issue : Diagnostic} (place : issue.pos = token.pos) :
    issue.atIllegal tokens = decide (token.kind = .illegal) := by
  rw [Bool.eq_iff_iff, Diagnostic.atIllegal, List.any_eq_true, decide_eq_true_iff]
  constructor
  · rintro ⟨other, inside, both⟩
    obtain ⟨isIllegal, same⟩ := of_decide_eq_true both
    cases List.inj_on_of_nodup_map places inside member (same.trans place)
    exact isIllegal
  · exact fun isIllegal => ⟨token, member, decide_eq_true ⟨isIllegal, place.symm⟩⟩

/-- The errors of a rejected source stand at its tokens, in their order, and those at illegal tokens
are these tokens, each once and with its own text. -/
theorem diagnostics_ordered {source : Text} {issues : List Diagnostic}
    (rejected : parse source = .error issues) :
    (∀ issue ∈ issues, ∃ token ∈ (Lexer.new source).drain.1, issue.pos = token.pos) ∧
      issues.Pairwise Diagnostic.Ordered ∧
      issues.filter (·.atIllegal (Lexer.new source).drain.1) =
        ((Lexer.new source).drain.1.filter fun token => token.kind = .illegal).map
          fun token => ⟨token.text, token.pos⟩ := by
  obtain ⟨groups, complaints, rfl⟩ := parse_complaints rejected
  rw [Lexer.drain_new]
  exact ⟨fun _ member => complaints_placed complaints member,
    complaints_ordered complaints (tokensFrom_ordered [] source.chars),
    complaints_illegal complaints fun _ member _ => atIllegal_iff (tokens_nodup source) member⟩

theorem rejected_of_errors {source : Text} {issues : List Diagnostic}
    (errors : (match parse source with | .ok _ => none | .error found => some found) =
      some issues) :
    parse source = .error issues := by
  split at errors
  · cases errors
  · next found =>
      cases errors
      exact found

/-- One illegal token that recovery skips and one that parsing stops at. -/
def illegalSource : Text := text "x = ) @ ;\nvar y = 1 & 2;"

def illegalErrors : List Diagnostic :=
  [⟨text "expected expression, found ')'", ⟨1, 5⟩⟩, ⟨text "unexpected character '@'", ⟨1, 7⟩⟩,
    ⟨text "unexpected character '&'", ⟨2, 11⟩⟩]

theorem diagnostics_ordered_illegal :
    parse illegalSource = .error illegalErrors ∧ illegalErrors.Pairwise Diagnostic.Ordered ∧
      illegalErrors.filter (·.atIllegal (Lexer.new illegalSource).drain.1) =
        [⟨text "unexpected character '@'", ⟨1, 7⟩⟩,
          ⟨text "unexpected character '&'", ⟨2, 11⟩⟩] := by
  have rejected : parse illegalSource = .error illegalErrors :=
    rejected_of_errors (by decide +kernel)
  obtain ⟨_, ordered, illegal⟩ := diagnostics_ordered rejected
  refine ⟨rejected, ordered, illegal.trans ?_⟩
  decide +kernel

/-- Errors are reported once, apart from the one that the end of the source leaves a block open, and
the one about a closing brace where an expression should be, which is then reported twice. -/
theorem diagnostics_distinct {source : Text} {issues : List Diagnostic}
    (rejected : parse source = .error issues) (issue : Diagnostic) :
    issues.count issue ≤ 1 ∨
      (∃ final, (tokens source).getLast? = some final ∧ issue = .unclosed final.pos) ∨
      ∃ token ∈ tokens source, token.kind = .rightBrace ∧ issue = .stray token.pos ∧
        issues.count issue = 2 := by
  rcases Nat.lt_or_ge 1 (issues.count issue) with again | once
  · obtain ⟨groups, complaints, rfl⟩ := parse_complaints rejected
    obtain ⟨token, member, group, about, same⟩ := complaints_count complaints (tokens_nodup source)
      (List.count_pos_iff.mp (Nat.lt_of_succ_lt again))
    rw [same] at again ⊢
    rcases about.repeated again with ⟨ends, isUnclosed⟩ | ⟨isBrace, isStray, twice⟩
    · obtain ⟨given, final, whole, _, goesOn⟩ := tokensFrom_ended source.chars .start
      rw [← tokens] at whole
      rw [whole] at member
      have isFinal : token = final := List.mem_singleton.mp
        ((List.mem_append.mp member).resolve_left fun inside => goesOn token inside ends)
      exact .inr (.inl ⟨final, by rw [whole, List.getLast?_concat], isFinal ▸ isUnclosed⟩)
    · exact .inr (.inr ⟨token, member, isBrace, isStray, twice⟩)
  · exact .inl once

/-- A brace at which a statement fails and which closes nothing, and two blocks left open. -/
def bracesSource : Text := text "a = \x7d \x7b \x7b"

def bracesErrors : List Diagnostic :=
  [.stray ⟨1, 5⟩, .stray ⟨1, 5⟩, .unclosed ⟨1, 10⟩, .unclosed ⟨1, 10⟩]

theorem parse_braces : parse bracesSource = .error bracesErrors :=
  rejected_of_errors (by decide +kernel)

theorem diagnostics_not_distinct :
    parse bracesSource = .error bracesErrors ∧ ¬bracesErrors.Nodup :=
  ⟨parse_braces, by decide +kernel⟩

theorem diagnostics_distinct_braces :
    parse bracesSource = .error bracesErrors ∧
      ∃ token ∈ tokens bracesSource, token.kind = .rightBrace ∧
        Diagnostic.stray ⟨1, 5⟩ = .stray token.pos ∧ bracesErrors.count (.stray ⟨1, 5⟩) = 2 := by
  have twice : ¬bracesErrors.count (.stray ⟨1, 5⟩) ≤ 1 := by decide +kernel
  have apart : (Diagnostic.stray .start).message ≠ (Diagnostic.unclosed .start).message := by
    decide +kernel
  refine ⟨parse_braces, ?_⟩
  rcases diagnostics_distinct parse_braces (.stray ⟨1, 5⟩) with once | ⟨final, _, same⟩ | brace
  · exact absurd once twice
  · exact absurd (congrArg Diagnostic.message same) apart
  · exact brace

end Rover
