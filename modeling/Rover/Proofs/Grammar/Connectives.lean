import Mathlib.Data.List.TakeWhile
import Rover.Proofs.Grammar.Lookahead

/-!
How a chain of `||`, `&&` and `=` is grouped. A run of `||` groups to the left; the first `&&` or
`=` behind it takes everything that follows as its right operand.
-/

namespace Rover

open Rover.Parser
open Rover.Parser.Step (outcome_andThen outcome_map outcome_after)

/-- Tokens that are read as an equality, and its tree. -/
structure Operand where
  tokens : List Token
  tree : Expr
  read : ∃ finish, (operation finish .equality tokens).outcome = (some tree, [], [])

theorem operation_name (finish pos : Pos) (name : Text) :
    (operation finish .equality [⟨.identifier, name, pos⟩]).outcome =
      (some (.name name pos), [], []) := by
  with_unfolding_all rfl

def Operand.name (name : Text) (pos : Pos) : Operand where
  tokens := [⟨.identifier, name, pos⟩]
  tree := .name name pos
  read := ⟨pos, operation_name pos pos name⟩

structure Link where
  sign : Token
  operand : Operand
  connects : sign.kind = .or ∨ sign.kind = .and ∨ sign.kind = .assign

def Link.tokens (link : Link) : List Token :=
  link.sign :: link.operand.tokens

def Link.disjoins (link : Link) : Bool :=
  link.sign.kind = .or

def disjoined (first : Expr) (links : List Link) : Expr :=
  links.foldl (fun left link => .binary .or left link.operand.tree link.sign.pos) first

/-- An `&&` behind a run of `||` takes only the last operand of the run. -/
def conjoined (first : Expr) (run : List Link) (right : Expr) (pos : Pos) : Expr :=
  match run.getLast? with
  | none => .binary .and first right pos
  | some last =>
      .binary .or (disjoined first run.dropLast) (.binary .and last.operand.tree right pos)
        last.sign.pos

/-- The tree of a chain: the first `&&` or `=` splits it, and all that follows is its right
operand. -/
def grouped (first : Expr) (links : List Link) : Expr :=
  let run := links.takeWhile Link.disjoins
  match _ : links.dropWhile Link.disjoins with
  | [] => disjoined first run
  | link :: more =>
      let right := grouped link.operand.tree more
      if link.sign.kind = .assign then .binary .assign (disjoined first run) right link.sign.pos
      else conjoined first run right link.sign.pos
termination_by links.length
decreasing_by
  next found =>
    have shorter := (List.dropWhile_suffix Link.disjoins : links.dropWhile _ <:+ links).length_le
    rw [found] at shorter
    exact shorter

section Chains

variable {finish : Pos} {rest : List Token}

theorem Operand.reads (operand : Operand) (finish : Pos) (loose : Loose 2 rest) :
    (operation finish .equality (operand.tokens ++ rest)).outcome =
      (some operand.tree, rest, []) := by
  obtain ⟨tokens, tree, finish', read⟩ := operand
  have alone := read
  simp only [Step.outcome, Prod.mk.injEq] at alone
  obtain ⟨_, left, silent⟩ := alone
  obtain ⟨_, used, _, whole, derived⟩ := (operation_sound finish' .equality tokens).derived silent
  rw [left, List.append_nil] at whole
  subst whole
  obtain ⟨value, follows⟩ := ReadsOperation.equality (derived.complete finish) rest loose
  have before := follows
  simp only [Step.outcome, Prod.mk.injEq] at before
  have same :=
    (operation_ahead finish finish' .equality (tokens ++ rest)).value tokens rest [] value
    [] rfl before.2.2 before.1 before.2.1 (.inr rfl)
  rw [List.append_nil] at same
  cases (congrArg Prod.fst read).symm.trans (congrArg Prod.fst same)
  exact follows

theorem Operand.reads_conjunction (operand : Operand) (finish : Pos) (loose : Loose 2 rest)
    (other : ∀ token more, rest = token :: more → token.kind ≠ .and) :
    (conjunction finish (operand.tokens ++ rest)).outcome = (some operand.tree, rest, []) := by
  rw [Parser.conjunction]
  refine outcome_andThen (operand.reads finish loose) fun _ _ => ?_
  cases rest with
  | nil => rfl
  | cons token more => exact congrArg _ (if_neg (other token more rfl))

theorem Operand.reads_conjoined (operand : Operand) {sign : Token} {given : List Token}
    {right : Expr} (conjoins : sign.kind = .and)
    (read : (expression finish given).outcome = (some right, rest, [])) :
    (conjunction finish (operand.tokens ++ sign :: given)).outcome =
      (some (.binary .and operand.tree right sign.pos), rest, []) := by
  have loose : Loose 2 (sign :: given) := by
    rw [Loose, conjoins]
    decide
  rw [Parser.conjunction]
  refine outcome_andThen (operand.reads finish loose) fun _ _ => ?_
  dsimp only
  rw [if_pos conjoins, outcome_after]
  exact outcome_map _ read

theorem Link.loose (link : Link) : Loose 2 (link.tokens ++ rest) := by
  rw [Link.tokens, List.cons_append, Loose]
  rcases link.connects with kind | kind | kind <;> rw [kind] <;> decide

theorem run_loose (run : List Link) (loose : Loose 2 rest) :
    Loose 2 (run.flatMap Link.tokens ++ rest) := by
  cases run with
  | nil => exact loose
  | cons link run =>
      rw [List.flatMap_cons, List.append_assoc]
      exact link.loose

theorem run_goesOn (run : List Link) (disjoins : ∀ link ∈ run, link.sign.kind = .or)
    (other : ∀ token more, rest = token :: more → token.kind ≠ .and) (token : Token)
    (more : List Token) (same : run.flatMap Link.tokens ++ rest = token :: more) :
    token.kind ≠ .and := by
  cases run with
  | nil => exact other token more same
  | cons link run =>
      cases same
      rw [disjoins link List.mem_cons_self]
      decide

theorem disjuncts_run (run : List Link) (disjoins : ∀ link ∈ run, link.sign.kind = .or)
    (left : Expr) (loose : Loose 2 rest)
    (other : ∀ token more, rest = token :: more → token.kind ≠ .and) :
    (disjuncts finish left (run.flatMap Link.tokens ++ rest)).outcome =
      (disjuncts finish (disjoined left run) rest).outcome := by
  induction run generalizing left with
  | nil => rfl
  | cons link run ih =>
      have isOr := disjoins link List.mem_cons_self
      have disjoinsMore : ∀ other ∈ run, other.sign.kind = .or :=
        fun other member => disjoins other (List.mem_cons_of_mem link member)
      rw [List.flatMap_cons, Link.tokens, List.cons_append, List.cons_append, List.append_assoc,
        disjuncts.eq_def]
      dsimp only
      rw [if_pos isOr, outcome_after]
      refine outcome_andThen (link.operand.reads_conjunction finish (run_loose run loose)
        (run_goesOn run disjoinsMore other)) fun _ _ => ?_
      exact ih disjoinsMore _

theorem reads_disjunction (first : Operand) (run : List Link)
    (disjoins : ∀ link ∈ run, link.sign.kind = .or) (loose : Loose 2 rest)
    (other : ∀ token more, rest = token :: more → token.kind ≠ .and) :
    (disjunction finish (first.tokens ++ (run.flatMap Link.tokens ++ rest))).outcome =
      (disjuncts finish (disjoined first.tree run) rest).outcome := by
  rw [disjunction]
  refine outcome_andThen (first.reads_conjunction finish (run_loose run loose)
    (run_goesOn run disjoins other)) fun _ _ => ?_
  exact disjuncts_run run disjoins first.tree loose other

theorem expression_stop {given : List Token} {tree : Expr} (loose : Loose 1 rest)
    (read : (disjunction finish given).outcome = (some tree, rest, [])) :
    (expression finish given).outcome = (some tree, rest, []) := by
  rw [expression]
  refine outcome_andThen read fun _ _ => ?_
  cases rest with
  | nil => rfl
  | cons token more => exact congrArg _ (if_neg (loose.kind_ne (by decide)))

theorem expression_assign {given more : List Token} {sign : Token} {left right : Expr}
    (assigns : sign.kind = .assign)
    (read : (disjunction finish given).outcome = (some left, sign :: more, []))
    (readRight : (expression finish more).outcome = (some right, rest, [])) :
    (expression finish given).outcome =
      (some (.binary .assign left right sign.pos), rest, []) := by
  rw [expression]
  refine outcome_andThen read fun _ _ => ?_
  dsimp only
  rw [if_pos assigns, outcome_after]
  exact outcome_map _ readRight

/-- Behind a run of `||`, an `&&` and the expression that it takes. -/
theorem disjunction_conjoined (first : Operand) (run : List Link)
    (disjoins : ∀ link ∈ run, link.sign.kind = .or) {sign : Token} {given : List Token}
    {right : Expr} (conjoins : sign.kind = .and) (loose : Loose 1 rest)
    (read : (expression finish given).outcome = (some right, rest, [])) :
    (disjunction finish (first.tokens ++ (run.flatMap Link.tokens ++ sign :: given))).outcome =
      (some (conjoined first.tree run right sign.pos), rest, []) := by
  have stop (tree : Expr) : (disjuncts finish tree rest).outcome = (some tree, rest, []) :=
    disjuncts_stop tree (loose.stops (by decide))
  rcases List.eq_nil_or_concat run with rfl | ⟨before, last, whole⟩
  · rw [disjunction]
    exact outcome_andThen (first.reads_conjoined conjoins read) fun _ _ => stop _
  · rw [List.concat_eq_append] at whole
    subst whole
    have isOr := disjoins last (by simp)
    have whole : (before ++ [last]).flatMap Link.tokens ++ sign :: given =
        before.flatMap Link.tokens ++ last.sign :: (last.operand.tokens ++ sign :: given) := by
      simp [Link.tokens]
    have holds : Loose 2 (last.sign :: (last.operand.tokens ++ sign :: given)) := by
      rw [Loose, isOr]
      decide
    rw [whole, reads_disjunction first before (fun link member => disjoins link (by simp [member]))
      holds (by rintro _ _ ⟨⟩; rw [isOr]; decide), disjuncts.eq_def]
    dsimp only
    rw [if_pos isOr, outcome_after]
    refine outcome_andThen (last.operand.reads_conjoined conjoins read) fun _ _ => ?_
    rw [conjoined, List.getLast?_concat, List.dropLast_concat]
    exact stop _

/-- A chain of equalities is read up to its end, as the tree that its connectives group. -/
theorem expression_grouped (finish : Pos) (first : Operand) (links : List Link)
    (rest : List Token) (loose : Loose 1 rest) :
    (expression finish (first.tokens ++ (links.flatMap Link.tokens ++ rest))).outcome =
      (some (grouped first.tree links), rest, []) := by
  induction length : links.length using Nat.strongRecOn generalizing first links with
  | _ bound ih =>
      have split := List.takeWhile_append_dropWhile (p := Link.disjoins) (l := links)
      have disjoins : ∀ link ∈ links.takeWhile Link.disjoins, link.sign.kind = .or :=
        fun link member =>
          have passes : link.disjoins = true := List.mem_takeWhile_imp member
          of_decide_eq_true passes
      rw [grouped]
      dsimp only
      generalize links.takeWhile Link.disjoins = run at *
      split
      · next ended =>
          rw [ended, List.append_nil] at split
          subst split
          apply expression_stop loose
          rw [reads_disjunction first run disjoins (loose.mono (by decide))
            (loose.stops (by decide))]
          exact disjuncts_stop _ (loose.stops (by decide))
      · next link more found =>
          have isOther : link.sign.kind ≠ .or := by
            have stops := List.head?_dropWhile_not Link.disjoins links
            rw [found] at stops
            exact of_decide_eq_false stops
          have shorter : more.length < bound := by
            rw [← length, ← split, found, List.length_append, List.length_cons]
            omega
          rw [found] at split
          subst split
          have read := ih more.length shorter link.operand more rfl
          have whole : (run ++ link :: more).flatMap Link.tokens ++ rest =
              run.flatMap Link.tokens ++
                link.sign :: (link.operand.tokens ++ (more.flatMap Link.tokens ++ rest)) := by
            simp [Link.tokens]
          rw [whole]
          split
          · next assigns =>
              refine expression_assign assigns ?_ read
              have holds : Loose 2 (link.sign ::
                  (link.operand.tokens ++ (more.flatMap Link.tokens ++ rest))) := by
                rw [Loose, assigns]
                decide
              rw [reads_disjunction first run disjoins holds
                (by rintro _ _ ⟨⟩; rw [assigns]; decide)]
              exact disjuncts_stop _ (by rintro _ _ ⟨⟩; exact isOther)
          · next notAssign =>
              have conjoins : link.sign.kind = .and :=
                (link.connects.resolve_left isOther).resolve_right notAssign
              exact expression_stop loose
                (disjunction_conjoined first run disjoins conjoins loose read)

end Chains

/-- The chain behind `a` in `a || b && c = d || e`. -/
def mixedLinks : List Link :=
  [⟨⟨.or, [], ⟨1, 3⟩⟩, .name (text "b") ⟨1, 6⟩, .inl rfl⟩,
    ⟨⟨.and, [], ⟨1, 8⟩⟩, .name (text "c") ⟨1, 11⟩, .inr (.inl rfl)⟩,
    ⟨⟨.assign, [], ⟨1, 13⟩⟩, .name (text "d") ⟨1, 15⟩, .inr (.inr rfl)⟩,
    ⟨⟨.or, [], ⟨1, 17⟩⟩, .name (text "e") ⟨1, 20⟩, .inl rfl⟩]

theorem expression_grouped_mixed :
    Loose 1 [⟨.semicolon, [], ⟨1, 21⟩⟩] ∧
      (expression ⟨1, 22⟩ ((Operand.name (text "a") ⟨1, 1⟩).tokens ++
        (mixedLinks.flatMap Link.tokens ++ [⟨.semicolon, [], ⟨1, 21⟩⟩]))).outcome =
      (some (.binary .or (.name (text "a") ⟨1, 1⟩)
        (.binary .and (.name (text "b") ⟨1, 6⟩)
          (.binary .assign (.name (text "c") ⟨1, 11⟩)
            (.binary .or (.name (text "d") ⟨1, 15⟩) (.name (text "e") ⟨1, 20⟩) ⟨1, 17⟩) ⟨1, 13⟩)
          ⟨1, 8⟩) ⟨1, 3⟩), [⟨.semicolon, [], ⟨1, 21⟩⟩], []) := by
  have loose : Loose 1 [⟨.semicolon, [], ⟨1, 21⟩⟩] := Nat.zero_lt_one
  refine ⟨loose, (expression_grouped ⟨1, 22⟩ (.name (text "a") ⟨1, 1⟩) mixedLinks _ loose).trans ?_⟩
  with_unfolding_all rfl

end Rover
