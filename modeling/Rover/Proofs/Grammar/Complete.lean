import Rover.Proofs.Grammar.Precedence

/-!
Every derivation is read. The induction is on the derivation and says of each symbol how the parser
reads what derives from it; the parser chooses by the first token, so it starts with which tokens
derivations start with.
-/

namespace Rover

open Rover.Parser
open Rover.Parser.Step (outcome_andThen outcome_map outcome_after)

def Kind.StartsExpression : Kind → Prop
  | .int | .float | .string | .identifier | .leftParen | .leftSquare | .not | .minus => True
  | _ => False

def Kind.StartsStatement : Kind → Prop
  | .ifWord | .whileWord | .leftBrace | .varWord | .constWord => True
  | kind => kind.StartsExpression

def First (kinds : Kind → Prop) (used : List Token) : Prop :=
  ∃ token more, used = token :: more ∧ kinds token.kind

theorem First.append {kinds : Kind → Prop} {used : List Token} (first : First kinds used)
    (rest : List Token) : First kinds (used ++ rest) := by
  obtain ⟨token, more, rfl, kind⟩ := first
  exact ⟨token, more ++ rest, rfl, kind⟩

theorem First.mono {kinds wider : Kind → Prop} {used : List Token} (first : First kinds used)
    (implies : ∀ kind, kinds kind → wider kind) : First wider used := by
  obtain ⟨token, more, same, kind⟩ := first
  exact ⟨token, more, same, implies token.kind kind⟩

theorem Kind.StartsExpression.statement {kind : Kind} (starts : kind.StartsExpression) :
    kind.StartsStatement := by
  cases kind <;> trivial

def Starts : Symbol → List Token → Prop
  | .program, _ => True
  | .statements, used => used = [] ∨ First Kind.StartsStatement used
  | .statement, used => First Kind.StartsStatement used
  | .conditional, used => First (Eq .ifWord) used
  | .block, used => First (Eq .leftBrace) used
  | _, used => First Kind.StartsExpression used

theorem Derives.starts {symbol : Symbol} {used : List Token} {tree : symbol.Tree}
    (derived : Derives symbol used tree) : Starts symbol used := by
  have one {kinds : Kind → Prop} {token : Token} {kind : Kind} (more : List Token)
      (same : token.kind = kind) (starts : kinds kind) : First kinds (token :: more) :=
    ⟨token, more, rfl, same ▸ starts⟩
  induction derived with
  | program => trivial
  | none => exact .inl rfl
  | more _ _ ih _ => exact .inr (ih.append _)
  | branch _ ih | nested _ ih =>
      refine First.mono ih fun kind same => ?_
      subst same
      trivial
  | loop kind _ _ _ _ => exact one _ kind trivial
  | @definition _ _ _ _ _ _ constant _ _ kind =>
      exact one _ kind (by cases constant <;> trivial)
  | effect _ _ ih => exact (ih.append _).mono fun _ => Kind.StartsExpression.statement
  | single kind _ _ _ _ => exact one _ kind rfl
  | chained kind _ _ _ _ _ _ _ => exact one _ kind rfl
  | double kind _ _ _ _ _ _ _ => exact one _ kind rfl
  | braced kind _ _ _ => exact one _ kind rfl
  | signed signs _ _ =>
      refine ⟨_, _, rfl, ?_⟩
      revert signs
      generalize Token.kind _ = kind
      rintro (_ | _) <;> trivial
  | int kind => exact one _ kind trivial
  | float kind => exact one _ kind trivial
  | string kind => exact one _ kind trivial
  | name kind => exact one _ kind trivial
  | grouped kind _ _ _ => exact one _ kind trivial
  | array kind _ _ _ => exact one _ kind trivial
  | call _ _ _ _ ih _ => exact (ih.append _).append _
  | index _ _ _ _ ih _ => exact (ih.append _).append _
  | assigned _ _ _ ih _ | either _ _ _ ih _ | both _ _ _ ih _ | equalities _ _ _ ih _
  | comparisons _ _ _ ih _ | sums _ _ _ ih _ | products _ _ _ ih _ | items _ _ _ ih _ =>
      exact ih.append _
  | valued _ ih | disjunct _ ih | conjunct _ ih | equality _ ih | comparison _ ih | sum _ ih
  | product _ ih | unsigned _ ih | bare _ ih | item _ ih => exact ih

theorem loose_of_kind {level : Nat} {token : Token} {kind : Kind} {rest : List Token}
    (same : token.kind = kind) (loose : kind.tightness < level) : Loose level (token :: rest) := by
  subst same
  exact loose

section Bases

variable (finish : Pos)

def ReadsUnary (used : List Token) : Prop :=
  Reads (unary finish) (Loose 6) used

/-- The tokens are read as a base, to which calls and indices may then be added. -/
def ReadsBase (used : List Token) : Prop :=
  ∀ rest, ∃ base, (unary finish (used ++ rest)).outcome = (suffixes finish base rest).outcome

def ReadsList (used : List Token) : Prop :=
  ∀ final : Token, final.kind = .rightParen ∨ final.kind = .rightSquare →
    ∀ what, Reads (list finish final.kind what) (fun _ => True) (used ++ [final])

def ReadsItems (used : List Token) : Prop :=
  ∀ final : Token, final.kind = .rightParen ∨ final.kind = .rightSquare →
    ∀ what, Reads (items finish final.kind what) (fun _ => True) (used ++ [final])

variable {finish} {used inner : List Token} {opening closing : Token}

theorem ReadsUnary.operand (reads : ReadsUnary finish used) :
    ReadsOperand finish .product used := by
  intro rest loose
  rw [Parser.operand]
  exact reads rest loose

theorem ReadsUnary.signed {sign : Token} {op : UnaryOp} (signs : Signs sign.kind op)
    (reads : ReadsUnary finish used) : ReadsUnary finish (sign :: used) := by
  intro rest loose
  obtain ⟨tree, read⟩ := reads rest loose
  refine ⟨.unary op tree sign.pos, ?_⟩
  rw [List.cons_append, unary.eq_def]
  dsimp only
  rw [signs_iff.mp signs]
  dsimp only
  rw [outcome_after]
  exact outcome_map _ read

theorem suffixes_stop (base : Expr) {rest : List Token} (loose : Loose 6 rest) :
    (suffixes finish base rest).outcome = (some base, rest, []) := by
  rw [suffixes.eq_def]
  cases rest with
  | nil => rfl
  | cons token more =>
      have notParen := loose.kind_ne (show 6 ≤ Kind.leftParen.tightness by decide)
      have notSquare := loose.kind_ne (show 6 ≤ Kind.leftSquare.tightness by decide)
      dsimp only
      split
      · next kind => exact absurd kind notParen
      · next kind => exact absurd kind notSquare
      · rfl

theorem ReadsBase.unary (reads : ReadsBase finish used) : ReadsUnary finish used := by
  intro rest loose
  obtain ⟨base, read⟩ := reads rest
  exact ⟨base, read.trans (suffixes_stop base loose)⟩

theorem ReadsBase.call (reads : ReadsBase finish used) (opens : opening.kind = .leftParen)
    (list : ReadsList finish inner) (closes : closing.kind = .rightParen) :
    ReadsBase finish (used ++ opening :: inner ++ [closing]) := by
  intro rest
  obtain ⟨callee, read⟩ := reads (opening :: (inner ++ [closing] ++ rest))
  obtain ⟨arguments, readList⟩ := list closing (.inl closes) (text "argument") rest trivial
  refine ⟨.call callee arguments callee.pos, ?_⟩
  rw [closes] at readList
  have whole : used ++ opening :: inner ++ [closing] ++ rest =
      used ++ opening :: (inner ++ [closing] ++ rest) := by simp
  rw [whole, read, suffixes.eq_def]
  simp only [opens]
  rw [outcome_after]
  exact outcome_andThen readList fun _ _ => rfl

theorem ReadsBase.index (reads : ReadsBase finish used) (opens : opening.kind = .leftSquare)
    (position : ReadsExpression finish inner) (closes : closing.kind = .rightSquare) :
    ReadsBase finish (used ++ opening :: inner ++ [closing]) := by
  intro rest
  obtain ⟨array, read⟩ := reads (opening :: (inner ++ closing :: rest))
  obtain ⟨index, readIndex⟩ := position (closing :: rest) (loose_of_kind closes (by decide))
  refine ⟨.index array index opening.pos, ?_⟩
  have whole : used ++ opening :: inner ++ [closing] ++ rest =
      used ++ opening :: (inner ++ closing :: rest) := by simp
  rw [whole, read, suffixes.eq_def]
  simp only [opens]
  rw [outcome_after]
  refine outcome_andThen readIndex fun _ _ => ?_
  exact outcome_andThen (outcome_expect finish _ closes rest) fun _ _ => rfl

/-- A token that is no sign starts a base. -/
theorem unary_unsigned {token : Token} {kind : Kind} (same : token.kind = kind)
    (unsigned : unaryOperator? kind = none) (rest : List Token) :
    unary finish (token :: rest) = postfixed finish (token :: rest) := by
  rw [unary.eq_def]
  dsimp only
  rw [same, unsigned]

theorem readsBase_literal {token : Token} (kind : token.kind = .int ∨ token.kind = .float ∨
    token.kind = .string ∨ token.kind = .identifier) : ReadsBase finish [token] := by
  intro rest
  rw [List.singleton_append]
  rcases kind with kind | kind | kind | kind
  all_goals
    rw [unary_unsigned kind rfl, postfixed.eq_def]
    simp only [kind]
    exact ⟨_, rfl⟩

theorem readsBase_grouped (opens : opening.kind = .leftParen) (reads : ReadsExpression finish inner)
    (closes : closing.kind = .rightParen) : ReadsBase finish (opening :: inner ++ [closing]) := by
  intro rest
  obtain ⟨tree, read⟩ := reads (closing :: rest) (loose_of_kind closes (by decide))
  refine ⟨tree, ?_⟩
  have whole : opening :: inner ++ [closing] ++ rest = opening :: (inner ++ closing :: rest) := by
    simp
  rw [whole, unary_unsigned opens rfl, postfixed.eq_def]
  simp only [opens]
  rw [outcome_after]
  refine outcome_andThen read fun _ _ => ?_
  exact outcome_andThen (outcome_expect finish _ closes rest) fun _ _ => rfl

theorem readsBase_array (opens : opening.kind = .leftSquare) (reads : ReadsList finish inner)
    (closes : closing.kind = .rightSquare) : ReadsBase finish (opening :: inner ++ [closing]) := by
  intro rest
  obtain ⟨elements, read⟩ := reads closing (.inr closes) (text "array element") rest trivial
  refine ⟨.array elements opening.pos, ?_⟩
  rw [closes] at read
  have whole : opening :: inner ++ [closing] ++ rest = opening :: (inner ++ [closing] ++ rest) := by
    simp
  rw [whole, unary_unsigned opens rfl, postfixed.eq_def]
  simp only [opens]
  rw [outcome_after]
  exact outcome_andThen read fun _ _ => rfl

end Bases

section Lists

variable {finish : Pos} {used : List Token}

theorem loose_of_closing {token : Token} (closes : token.kind = .rightParen ∨
    token.kind = .rightSquare) (rest : List Token) : Loose 1 (token :: rest) := by
  rcases closes with kind | kind <;> exact loose_of_kind kind (by decide)

theorem ReadsExpression.item (reads : ReadsExpression finish used) : ReadsItems finish used := by
  intro final closes what rest _
  obtain ⟨tree, read⟩ := reads (final :: rest) (loose_of_closing closes rest)
  refine ⟨[tree], ?_⟩
  rw [List.append_assoc, List.singleton_append, Parser.items]
  refine outcome_andThen read fun _ _ => ?_
  dsimp only
  rw [if_neg]
  · exact outcome_map _ (outcome_expect finish _ rfl rest)
  · rcases closes with kind | kind <;> rw [kind] <;> decide

theorem ReadsItems.cons {first : List Token} {comma : Token} (reads : ReadsExpression finish first)
    (separates : comma.kind = .comma) (items : ReadsItems finish used) :
    ReadsItems finish (first ++ comma :: used) := by
  intro final closes what rest _
  obtain ⟨tree, read⟩ := reads (comma :: (used ++ [final] ++ rest))
    (loose_of_kind separates (by decide))
  obtain ⟨trees, readItems⟩ := items final closes what rest trivial
  refine ⟨tree :: trees, ?_⟩
  have whole : first ++ comma :: used ++ [final] ++ rest =
      first ++ comma :: (used ++ [final] ++ rest) := by simp
  rw [whole, Parser.items]
  refine outcome_andThen read fun _ _ => ?_
  dsimp only
  rw [if_pos separates, outcome_after]
  exact outcome_map _ readItems

theorem ReadsItems.list (reads : ReadsItems finish used)
    (starts : First Kind.StartsExpression used) : ReadsList finish used := by
  intro final closes what rest _
  obtain ⟨trees, read⟩ := reads final closes what rest trivial
  refine ⟨trees, ?_⟩
  rw [Parser.list, if_neg]
  · exact read
  · obtain ⟨token, more, rfl, kind⟩ := starts
    intro same
    change token.kind = final.kind at same
    rcases closes with closing | closing <;> rw [same, closing] at kind <;> exact kind

end Lists

section Statements

def NoElse : List Token → Prop
  | [] => True
  | token :: _ => token.kind ≠ .elseWord

def Ended (closing : Kind) : List Token → Prop
  | [] => True
  | token :: _ => token.kind = closing ∨ token.kind = .eof

variable (finish : Pos)

def ReadsBlock (used : List Token) : Prop :=
  Reads (block finish) (fun _ => True) used

def ReadsStatement (used : List Token) : Prop :=
  Reads (statement finish) NoElse used

def ReadsConditional (used : List Token) : Prop :=
  ∃ word more, used = word :: more ∧ word.kind = .ifWord ∧
    ∀ start, Reads (conditional finish start) NoElse more

def ReadsStatements (used : List Token) : Prop :=
  ∀ closing, closing = .rightBrace ∨ closing = .eof →
    Reads (statements finish closing) (Ended closing) used

variable {finish} {used test inner : List Token} {word final : Token}

theorem First.noElse (first : First Kind.StartsStatement used) : NoElse used := by
  obtain ⟨token, more, rfl, kind⟩ := first
  intro same
  rw [same] at kind
  exact kind

theorem Ended.noElse {closing : Kind} {rest : List Token} (ended : Ended closing rest)
    (closes : closing = .rightBrace ∨ closing = .eof) : NoElse rest := by
  cases rest with
  | nil => trivial
  | cons token more =>
      intro same
      rcases ended with kind | kind
      · rcases closes with rfl | rfl <;> cases same.symm.trans kind
      · cases same.symm.trans kind

theorem readsStatements_nil : ReadsStatements finish [] := by
  intro closing _ rest ended
  refine ⟨[], ?_⟩
  rw [List.nil_append, statements.eq_def]
  cases rest with
  | nil => rfl
  | cons token more =>
      dsimp only
      rw [dif_pos (show token.kind = closing ∨ token.kind = .eof from ended)]
      rfl

theorem statements_cons {closing : Kind} {token : Token} {rest left after : List Token}
    {stmt : Stmt} {stmts : List Stmt} (goesOn : ¬(token.kind = closing ∨ token.kind = .eof))
    (read : (statement finish (token :: rest)).outcome = (some stmt, left, []))
    (readOthers : (statements finish closing left).outcome = (some stmts, after, [])) :
    (statements finish closing (token :: rest)).outcome = (some (stmt :: stmts), after, []) := by
  rw [statements.eq_def]
  dsimp only
  rw [dif_neg goesOn]
  split
  · next found =>
      rw [found] at read
      simp only [Step.outcome, Prod.mk.injEq, Option.some.injEq] at read readOthers ⊢
      obtain ⟨rfl, rfl, rfl⟩ := read
      obtain ⟨result, remains, silent⟩ := readOthers
      rw [result, remains, silent]
      exact ⟨rfl, rfl, rfl⟩
  · next found =>
      rw [found] at read
      cases read

theorem ReadsStatements.cons {first : List Token} (reads : ReadsStatement finish first)
    (starts : First Kind.StartsStatement first) (others : ReadsStatements finish used)
    (startsOthers : used = [] ∨ First Kind.StartsStatement used) :
    ReadsStatements finish (first ++ used) := by
  intro closing closes rest ended
  have noElse : NoElse (used ++ rest) := by
    rcases startsOthers with rfl | startsOthers
    · exact ended.noElse closes
    · exact (startsOthers.append rest).noElse
  obtain ⟨stmt, read⟩ := reads (used ++ rest) noElse
  obtain ⟨stmts, readOthers⟩ := others closing closes rest ended
  obtain ⟨token, more, rfl, kind⟩ := starts
  have goesOn : ¬(token.kind = closing ∨ token.kind = .eof) := by
    rintro (same | same) <;> rw [same] at kind
    · rcases closes with rfl | rfl <;> exact kind
    · exact kind
  refine ⟨stmt :: stmts, ?_⟩
  rw [List.append_assoc]
  exact statements_cons goesOn read readOthers

theorem ReadsStatements.block {opening closing : Token} (opens : opening.kind = .leftBrace)
    (reads : ReadsStatements finish used) (closes : closing.kind = .rightBrace) :
    ReadsBlock finish (opening :: used ++ [closing]) := by
  intro rest _
  obtain ⟨body, read⟩ := reads .rightBrace (.inl rfl) (closing :: rest) (.inl closes)
  refine ⟨(body, opening.pos), ?_⟩
  have whole : opening :: used ++ [closing] ++ rest =
      opening :: (used ++ closing :: rest) := by simp
  rw [whole, Parser.block]
  refine outcome_andThen (outcome_expect finish _ opens _) fun _ _ => ?_
  refine outcome_andThen read fun _ _ => ?_
  exact outcome_map _ (outcome_expect finish _ closes rest)

theorem ReadsBlock.nested (reads : ReadsBlock finish used) (starts : First (Eq .leftBrace) used) :
    ReadsStatement finish used := by
  intro rest _
  obtain ⟨body, read⟩ := reads rest trivial
  refine ⟨.block body.1 body.2, ?_⟩
  obtain ⟨token, more, rfl, kind⟩ := starts
  rw [List.cons_append] at *
  rw [statement.eq_def]
  simp only [← kind]
  exact outcome_map _ read

/-- A block starts with no operator, so an expression before it ends there. -/
theorem loose_of_block (starts : First (Eq .leftBrace) used) (rest : List Token) :
    Loose 1 (used ++ rest) := by
  obtain ⟨token, more, rfl, kind⟩ := starts
  exact loose_of_kind kind.symm (by decide)

theorem ReadsBlock.loop (loops : word.kind = .whileWord) (reads : ReadsExpression finish test)
    (block : ReadsBlock finish inner) (starts : First (Eq .leftBrace) inner) :
    ReadsStatement finish (word :: test ++ inner) := by
  intro rest _
  obtain ⟨condition, read⟩ := reads (inner ++ rest) (loose_of_block starts rest)
  obtain ⟨body, readBody⟩ := block rest trivial
  refine ⟨.loop condition body.1 body.2 word.pos, ?_⟩
  have whole : word :: test ++ inner ++ rest = word :: (test ++ (inner ++ rest)) := by simp
  rw [whole, statement.eq_def]
  simp only [loops]
  rw [outcome_after]
  refine outcome_andThen read fun _ _ => ?_
  exact outcome_map _ readBody

theorem ReadsExpression.definition {name sign : Token} {constant : Bool}
    (defines : word.kind = if constant then .constWord else .varWord)
    (named : name.kind = .identifier) (assigns : sign.kind = .assign)
    (reads : ReadsExpression finish used) (ends : final.kind = .semicolon) :
    ReadsStatement finish (word :: name :: sign :: used ++ [final]) := by
  intro rest _
  obtain ⟨initial, read⟩ := reads (final :: rest) (loose_of_kind ends (by decide))
  have whole : word :: name :: sign :: used ++ [final] ++ rest =
      word :: (name :: sign :: (used ++ final :: rest)) := by simp
  have dispatch : (statement finish (word :: (name :: sign :: (used ++ final :: rest)))).outcome =
      (Parser.definition finish word (name :: sign :: (used ++ final :: rest))).outcome := by
    rw [statement.eq_def]
    cases constant with
    | false =>
        simp only [show word.kind = .varWord from defines]
        rfl
    | true =>
        simp only [show word.kind = .constWord from defines]
        rfl
  refine ⟨.define name.text name.pos initial (decide (word.kind = .constWord)) word.pos, ?_⟩
  rw [whole, dispatch]
  unfold Parser.definition
  refine outcome_andThen (outcome_expect finish _ named _) fun _ _ => ?_
  refine outcome_andThen (outcome_expect finish _ assigns _) fun _ _ => ?_
  refine outcome_andThen read fun _ _ => ?_
  exact outcome_map _ (outcome_expect finish _ ends rest)

theorem statement_simple {token : Token} (starts : token.kind.StartsExpression)
    (rest : List Token) : statement finish (token :: rest) = simple finish (token :: rest) := by
  rw [statement.eq_def]
  dsimp only
  split
  case h_6 => rfl
  all_goals
    next kind =>
      rw [kind] at starts
      exact starts.elim

theorem ReadsExpression.effect (reads : ReadsExpression finish used)
    (starts : First Kind.StartsExpression used) (ends : final.kind = .semicolon) :
    ReadsStatement finish (used ++ [final]) := by
  intro rest _
  obtain ⟨expr, read⟩ := reads (final :: rest) (loose_of_kind ends (by decide))
  refine ⟨.eval expr (peek finish (used ++ final :: rest)).pos, ?_⟩
  rw [List.append_assoc, List.singleton_append]
  obtain ⟨token, more, rfl, kind⟩ := starts
  rw [List.cons_append] at *
  rw [statement_simple kind]
  unfold simple
  refine outcome_andThen read fun _ _ => ?_
  exact outcome_map _ (outcome_expect finish _ ends rest)

theorem ReadsConditional.statement (reads : ReadsConditional finish used) :
    ReadsStatement finish used := by
  obtain ⟨word, more, rfl, kind, reads⟩ := reads
  intro rest noElse
  obtain ⟨stmt, read⟩ := reads word.pos rest noElse
  refine ⟨stmt, ?_⟩
  rw [List.cons_append, statement.eq_def]
  simp only [kind]
  rw [outcome_after]
  exact read

theorem ReadsConditional.alternative (reads : ReadsConditional finish used) :
    Reads (alternative finish) NoElse used := by
  obtain ⟨word, more, rfl, kind, reads⟩ := reads
  intro rest noElse
  obtain ⟨stmt, read⟩ := reads word.pos rest noElse
  refine ⟨stmt, ?_⟩
  rw [List.cons_append, Parser.alternative.eq_def]
  dsimp only
  rw [if_pos kind, outcome_after]
  exact read

theorem ReadsBlock.alternative (reads : ReadsBlock finish used)
    (starts : First (Eq .leftBrace) used) : Reads (alternative finish) NoElse used := by
  intro rest _
  obtain ⟨body, read⟩ := reads rest trivial
  refine ⟨.block body.1 body.2, ?_⟩
  obtain ⟨token, more, rfl, kind⟩ := starts
  rw [List.cons_append] at *
  rw [Parser.alternative.eq_def]
  dsimp only
  rw [if_neg (by rw [← kind]; decide)]
  exact outcome_map _ read

theorem readsConditional_single (branches : word.kind = .ifWord)
    (reads : ReadsExpression finish test) (block : ReadsBlock finish inner)
    (starts : First (Eq .leftBrace) inner) : ReadsConditional finish (word :: test ++ inner) := by
  refine ⟨word, test ++ inner, rfl, branches, fun start rest noElse => ?_⟩
  obtain ⟨condition, read⟩ := reads (inner ++ rest) (loose_of_block starts rest)
  obtain ⟨body, readBody⟩ := block rest trivial
  refine ⟨.cond condition body.1 body.2 .absent start, ?_⟩
  rw [List.append_assoc, conditional]
  refine outcome_andThen read fun _ _ => ?_
  refine outcome_andThen readBody fun _ _ => ?_
  cases rest with
  | nil => rfl
  | cons token more =>
      dsimp only
      rw [if_neg (show token.kind ≠ .elseWord from noElse)]
      rfl

theorem readsConditional_double {other : Token} {last : List Token} (branches : word.kind = .ifWord)
    (reads : ReadsExpression finish test) (block : ReadsBlock finish inner)
    (starts : First (Eq .leftBrace) inner) (alternates : other.kind = .elseWord)
    (readsLast : Reads (alternative finish) NoElse last) :
    ReadsConditional finish (word :: test ++ inner ++ other :: last) := by
  refine ⟨word, test ++ inner ++ other :: last, rfl, branches, fun start rest noElse => ?_⟩
  obtain ⟨condition, read⟩ := reads (inner ++ (other :: (last ++ rest)))
    (loose_of_block starts _)
  obtain ⟨body, readBody⟩ := block (other :: (last ++ rest)) trivial
  obtain ⟨otherwise, readOther⟩ := readsLast rest noElse
  refine ⟨.cond condition body.1 body.2 otherwise start, ?_⟩
  have whole : test ++ inner ++ other :: last ++ rest =
      test ++ (inner ++ (other :: (last ++ rest))) := by simp
  rw [whole, conditional]
  refine outcome_andThen read fun _ _ => ?_
  refine outcome_andThen readBody fun _ _ => ?_
  dsimp only
  rw [if_pos alternates, outcome_after]
  exact outcome_map _ readOther

end Statements

/-- How the parser reads what derives from a symbol. -/
def Complete (finish : Pos) : Symbol → List Token → Prop
  | .program, _ => True
  | .statements, used => ReadsStatements finish used
  | .statement, used => ReadsStatement finish used
  | .conditional, used => ReadsConditional finish used
  | .block, used => ReadsBlock finish used
  | .expression, used | .disjunction, used | .conjunction, used => Connected finish used
  | .operation tier, used => ReadsOperation finish tier used
  | .unary, used => ReadsUnary finish used
  | .applied, used | .primary, used => ReadsBase finish used
  | .list, used => ReadsItems finish used

theorem Derives.complete {symbol : Symbol} {used : List Token} {tree : symbol.Tree}
    (derived : Derives symbol used tree) (finish : Pos) : Complete finish symbol used := by
  induction derived with
  | program => trivial
  | none => exact readsStatements_nil
  | more first others ih ihMore => exact ReadsStatements.cons ih first.starts ihMore others.starts
  | branch _ ih => exact ReadsConditional.statement ih
  | loop kind _ block ihTest ih => exact ReadsBlock.loop kind ihTest.reads ih block.starts
  | nested block ih => exact ReadsBlock.nested ih block.starts
  | definition kind named assigns _ ends ih =>
      exact ReadsExpression.definition kind named assigns ih.reads ends
  | effect expr ends ih => exact ReadsExpression.effect ih.reads expr.starts ends
  | single kind _ block ihTest ih => exact readsConditional_single kind ihTest.reads ih block.starts
  | chained kind _ block alternates _ ihTest ih ihLast =>
      exact readsConditional_double kind ihTest.reads ih block.starts alternates
        (ReadsConditional.alternative ihLast)
  | double kind _ block alternates last ihTest ih ihLast =>
      exact readsConditional_double kind ihTest.reads ih block.starts alternates
        (ReadsBlock.alternative ihLast last.starts)
  | braced opens _ closes ih => exact ReadsStatements.block opens ih closes
  -- every expression is a chain of equalities, however its connectives were derived
  | valued _ ih | disjunct _ ih => exact ih
  | assigned _ kind _ ih ihMore | either _ kind _ ih ihMore =>
      exact Connected.append ih (by rw [kind]; rfl) ihMore
  | conjunct _ ih => exact .single (ReadsOperation.equality ih)
  | both _ kind _ ih ihMore =>
      exact .joined (ReadsOperation.equality ih) (by rw [kind]; rfl) ihMore
  | equality _ ih | comparison _ ih | sum _ ih =>
      exact ReadsOperand.operation (ReadsOperation.operand ih rfl)
  | product _ ih => exact ReadsOperand.operation (ReadsUnary.operand ih)
  | equalities _ joins _ ih ihMore | comparisons _ joins _ ih ihMore | sums _ joins _ ih ihMore =>
      exact ReadsOperation.join ih joins (ReadsOperation.operand ihMore rfl)
  | products _ joins _ ih ihMore => exact ReadsOperation.join ih joins (ReadsUnary.operand ihMore)
  | signed signs _ ih => exact ReadsUnary.signed signs ih
  | unsigned _ ih => exact ReadsBase.unary ih
  | bare _ ih => exact ih
  | call _ opens list closes ih ihList =>
      exact ReadsBase.call ih opens (ReadsItems.list ihList list.starts) closes
  | index _ opens _ closes ih ihIndex => exact ReadsBase.index ih opens ihIndex.reads closes
  | int kind => exact readsBase_literal (.inl kind)
  | float kind => exact readsBase_literal (.inr (.inl kind))
  | string kind => exact readsBase_literal (.inr (.inr (.inl kind)))
  | name kind => exact readsBase_literal (.inr (.inr (.inr kind)))
  | grouped opens _ closes ih => exact readsBase_grouped opens ih.reads closes
  | array opens list closes ih =>
      exact readsBase_array opens (ReadsItems.list ih list.starts) closes
  | item _ ih => exact ReadsExpression.item ih.reads
  | items _ separates _ ih ihMore => exact ReadsItems.cons ih.reads separates ihMore

end Rover
