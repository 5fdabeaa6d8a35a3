import Rover.Proofs.Grammar.Spelled
import Rover.Proofs.Strictness

/-!
Moving a program down by some lines changes nothing but the lines of its errors. Two runs, of a
program and of the same program lower down, take the same steps: they hold the same values all the
time, record the same errors at their own places, and write the same output.
-/

namespace Rover

def Pos.move (lines : Int) (pos : Pos) : Pos :=
  ⟨pos.line + lines, pos.col⟩

def RuntimeError.move (lines : Int) (error : RuntimeError) : RuntimeError :=
  ⟨error.fault, error.pos.move lines⟩

def Stop.move (lines : Int) : Stop → Stop
  | .error failure => .error (failure.move lines)
  | other => other

theorem Stop.move_of_ne {stop : Stop} (other : ∀ error, stop ≠ .error error) (lines : Int) :
    stop.move lines = stop := by
  cases stop with
  | error failure => exact absurd rfl (other failure)
  | _ => rfl

mutual

def Expr.move (lines : Int) : Expr → Expr
  | .absent => .absent
  | .int digits pos => .int digits (pos.move lines)
  | .float digits pos => .float digits (pos.move lines)
  | .str value pos => .str value (pos.move lines)
  | .name own pos => .name own (pos.move lines)
  | .array elements pos => .array (Expr.moveAll lines elements) (pos.move lines)
  | .unary op operand pos => .unary op (operand.move lines) (pos.move lines)
  | .binary op left right pos => .binary op (left.move lines) (right.move lines) (pos.move lines)
  | .call callee arguments pos =>
      .call (callee.move lines) (Expr.moveAll lines arguments) (pos.move lines)
  | .index base position pos => .index (base.move lines) (position.move lines) (pos.move lines)

def Expr.moveAll (lines : Int) : List Expr → List Expr
  | [] => []
  | first :: rest => first.move lines :: Expr.moveAll lines rest

end

mutual

def Stmt.move (lines : Int) : Stmt → Stmt
  | .absent => .absent
  | .eval expr pos => .eval (expr.move lines) (pos.move lines)
  | .block body pos => .block (Stmt.moveAll lines body) (pos.move lines)
  | .define name namePos initial constant pos =>
      .define name (namePos.move lines) (initial.move lines) constant (pos.move lines)
  | .cond condition body bodyPos otherwise pos =>
      .cond (condition.move lines) (Stmt.moveAll lines body) (bodyPos.move lines)
        (otherwise.move lines) (pos.move lines)
  | .loop condition body bodyPos pos =>
      .loop (condition.move lines) (Stmt.moveAll lines body) (bodyPos.move lines) (pos.move lines)

def Stmt.moveAll (lines : Int) : List Stmt → List Stmt
  | [] => []
  | first :: rest => first.move lines :: Stmt.moveAll lines rest

end

theorem Expr.length_moveAll (lines : Int) (exprs : List Expr) :
    (Expr.moveAll lines exprs).length = exprs.length := by
  induction exprs with
  | nil => rfl
  | cons first rest ih => rw [moveAll, List.length_cons, List.length_cons, ih]

theorem Expr.move_unnamed {expr : Expr} (unnamed : ∀ name pos, expr ≠ .name name pos) (lines : Int)
    (own : Text) (pos : Pos) : expr.move lines ≠ .name own pos := by
  cases expr with
  | name own pos => exact absurd rfl (unnamed own pos)
  | _ =>
      intro same
      cases same

theorem Stmt.isAbsent_move (lines : Int) (stmt : Stmt) :
    (stmt.move lines).isAbsent = stmt.isAbsent := by
  cases stmt <;> rfl

def moved {α : Type} (lines : Int) : Except RuntimeError α → Except RuntimeError α
  | .ok value => .ok value
  | .error failure => .error (failure.move lines)

/-- Two runs of one program, the second some lines lower down. They are compared by what they have
recorded, and written under a label, since they started. -/
structure Twins where
  lines : Int
  label : Text
  start : Machine
  other : Machine

structure Machine.Alike (here there : Machine) : Prop where
  scopes : there.scopes = here.scopes
  orphans : there.orphans = here.orphans
  next : there.next = here.next

structure Twins.Level (twins : Twins) (here there : Machine) : Prop extends here.Alike there where
  errors : ∃ added, here.errors.toList = twins.start.errors.toList ++ added ∧
    there.errors.toList = twins.other.errors.toList ++ added.map (·.move twins.lines)
  output : ∃ bytes, here.written twins.label = twins.start.written twins.label ++ bytes ∧
    there.written twins.label = twins.other.written twins.label ++ bytes

variable {twins : Twins} {here there : Machine}

namespace Twins.Level

theorem begins (alike : twins.start.Alike twins.other) : twins.Level twins.start twins.other :=
  ⟨alike, ⟨[], by simp⟩, ⟨[], by simp⟩⟩

theorem change (level : twins.Level here there) {scopes scopes' : Chain Value}
    {orphans orphans' : List Value} {next next' : Stamp} (sameScopes : scopes' = scopes)
    (sameOrphans : orphans' = orphans) (sameNext : next' = next) :
    twins.Level { here with scopes, orphans, next }
      ⟨scopes', orphans', next', there.errors, there.events⟩ :=
  ⟨⟨sameScopes, sameOrphans, sameNext⟩, level.errors, level.output⟩

theorem error (level : twins.Level here there) (failure : RuntimeError) :
    twins.Level { here with errors := here.errors.push failure }
      { there with errors := there.errors.push (failure.move twins.lines) } := by
  obtain ⟨added, errors, errorsThere⟩ := level.errors
  refine ⟨⟨level.scopes, level.orphans, level.next⟩, ⟨added ++ [failure], ?_⟩, level.output⟩
  simp [errors, errorsThere]

theorem array? (level : twins.Level here there) (stamp : Stamp) :
    there.array? stamp = here.array? stamp := by
  unfold Machine.array?
  rw [level.scopes, level.orphans]

/-- Both runs write the same under the label, whatever they write under others. -/
theorem events (level : twins.Level here there) {events others : Array Event} (bytes : Text)
    (output : Machine.written twins.label { here with events } = here.written twins.label ++ bytes)
    (outputThere : Machine.written twins.label { there with events := others } =
      there.written twins.label ++ bytes) :
    twins.Level { here with events } { there with events := others } := by
  obtain ⟨before, same, sameThere⟩ := level.output
  refine ⟨⟨level.scopes, level.orphans, level.next⟩, level.errors, ⟨before ++ bytes, ?_⟩⟩
  rw [output, outputThere, same, sameThere, List.append_assoc, List.append_assoc]
  exact ⟨rfl, rfl⟩

theorem flushed (level : twins.Level here there) (writer : Option Writer) :
    twins.Level (here.flushed writer) (there.flushed writer) := by
  refine ⟨⟨?_, ?_, ?_⟩, ?_, ?_⟩
  · simpa using level.scopes
  · simpa using level.orphans
  · simpa using level.next
  · simpa using level.errors
  · simpa using level.output

end Twins.Level

/-- The results of two runs match: both end in the same way, with values that are the same. -/
inductive Matching {α β : Type} (twins : Twins) (same : α → β → Prop) :
    EStateM.Result Stop Machine α → EStateM.Result Stop Machine β → Prop
  | ok {value : α} {value' : β} {here there : Machine} : same value value' →
      twins.Level here there → Matching twins same (.ok value here) (.ok value' there)
  | error {stop : Stop} {here there : Machine} : twins.Level here there →
      Matching twins same (.error stop here) (.error (stop.move twins.lines) there)

/-- From machines that have got equally far two actions go on equally. -/
def Mirrors {α β : Type} (twins : Twins) (action : Eval α) (mirror : Eval β)
    (same : α → β → Prop) : Prop :=
  ∀ here there, twins.Level here there → Matching twins same (action here) (mirror there)

section Mirrors

variable {α β γ δ : Type} {action : Eval α} {mirror : Eval β} {same : α → β → Prop}

theorem matching_error {stop : Stop} (other : ∀ error, stop ≠ .error error)
    (level : twins.Level here there) :
    Matching twins same (.error stop here) (.error stop there) := by
  have ends : Matching twins same (.error stop here) (.error (stop.move twins.lines) there) :=
    .error level
  rw [Stop.move_of_ne other] at ends
  exact ends

theorem mirrors_pure {value : α} {value' : β} (equal : same value value') :
    Mirrors twins (pure value) (pure value') same :=
  fun _ _ level => .ok equal level

theorem mirrors_throw {stop : Stop} (other : ∀ error, stop ≠ .error error) :
    Mirrors twins (throw stop : Eval α) (throw stop : Eval β) same :=
  fun _ _ level => matching_error other level

theorem mirrors_get : Mirrors twins get get twins.Level :=
  fun _ _ level => .ok level level

theorem Mirrors.bind {next : α → Eval γ} {next' : β → Eval δ} {final : γ → δ → Prop}
    (first : Mirrors twins action mirror same)
    (second : ∀ value value', same value value' → Mirrors twins (next value) (next' value') final) :
    Mirrors twins (action >>= next) (mirror >>= next') final := by
  intro here there level
  have begins := first here there level
  generalize ended : action here = result at begins
  generalize endedToo : mirror there = result' at begins
  cases begins with
  | ok equal after =>
      rw [bind_of_ok ended, bind_of_ok endedToo]
      exact second _ _ equal _ _ after
  | error after =>
      rw [bind_of_error ended, bind_of_error endedToo]
      exact .error after

theorem Mirrors.seq {mirror : Eval α} {next : α → Eval γ} {next' : α → Eval δ}
    {final : γ → δ → Prop} (first : Mirrors twins action mirror Eq)
    (second : ∀ value, Mirrors twins (next value) (next' value) final) :
    Mirrors twins (action >>= next) (mirror >>= next') final := by
  refine first.bind fun value value' same => ?_
  subst same
  exact second value

end Mirrors

section Brackets

variable {α β : Type} {action : Eval α} {mirror : Eval β} {same : α → β → Prop}

theorem Matching.change {change change' : Machine → Machine}
    {result : EStateM.Result Stop Machine α} {result' : EStateM.Result Stop Machine β}
    (matching : Matching twins same result result')
    (keeps : ∀ here there, twins.Level here there → twins.Level (change here) (change' there)) :
    Matching twins same (changing change result) (changing change' result') := by
  cases matching with
  | ok equal level => exact .ok equal (keeps _ _ level)
  | error level => exact .error (keeps _ _ level)

theorem Mirrors.complete (mirrors : Mirrors twins action mirror same) :
    Mirrors twins (Machine.complete action) (Machine.complete mirror) same := by
  intro here there level
  rw [complete_eq_changing, complete_eq_changing]
  refine (mirrors _ _ (level.change level.scopes rfl level.next)).change fun _ _ after => ?_
  exact after.change after.scopes rfl after.next

theorem Mirrors.inScope (mirrors : Mirrors twins action mirror same) :
    Mirrors twins (Machine.inScope action) (Machine.inScope mirror) same := by
  intro here there level
  rw [inScope_eq_changing, inScope_eq_changing]
  refine (mirrors _ _ (level.change (congrArg (List.cons []) level.scopes) level.orphans
    level.next)).change fun _ _ after => ?_
  exact after.change (congrArg List.tail after.scopes) after.orphans after.next

theorem Mirrors.flushing (mirrors : Mirrors twins action mirror same) (writer : Option Writer) :
    Mirrors twins (Machine.flushing writer action) (Machine.flushing writer mirror) same := by
  intro here there level
  rw [flushing_eq_changing, flushing_eq_changing]
  exact (mirrors _ _ level).change fun _ _ after => after.flushed writer

end Brackets

section Silent

variable {α : Type}

theorem Silent.mirrors {action : Eval α} (silent : Silent action)
    (unlogged : ∀ machine errors events, action { machine with errors, events } =
      changing (fun after => { after with errors, events }) (action machine)) :
    Mirrors twins action action Eq := by
  intro here there level
  -- the second machine is the first one with errors and events of its own
  have same : there = { here with errors := there.errors, events := there.events } := by
    obtain ⟨scopes, orphans, next, errors, events⟩ := there
    obtain ⟨⟨rfl, rfl, rfl⟩, _, _⟩ := level
    rfl
  have kept := congrArg reached (unlogged here here.errors here.events)
  rw [reached_changing] at kept
  have after (machine : Machine) (reaches : reached (action here) = machine) :
      twins.Level machine { machine with errors := there.errors, events := there.events } := by
    rw [← reaches, kept]
    exact level.change rfl rfl rfl
  rw [same, unlogged here there.errors there.events]
  cases result : action here with
  | ok value machine => exact .ok rfl (after machine (by rw [result, reached]))
  | error stop machine =>
      exact matching_error ((silent.errors here).of_error result).1
        (after machine (by rw [result, reached]))

theorem mirrors_kindOf (value : Value) :
    Mirrors twins (Machine.kindOf value) (Machine.kindOf value) Eq := by
  refine (silent_kindOf value).mirrors fun _ _ _ => ?_
  unfold Machine.kindOf
  cases value.kind? <;> rfl

theorem mirrors_copy (value : Value) :
    Mirrors twins (Machine.copy value) (Machine.copy value) Eq :=
  (silent_copy value).mirrors fun _ _ _ => rfl

theorem mirrors_newArray (elements : List Value) :
    Mirrors twins (Machine.newArray elements) (Machine.newArray elements) Eq :=
  (silent_newArray elements).mirrors fun _ _ _ => rfl

theorem mirrors_orphan (value : Value) :
    Mirrors twins (Machine.orphan value) (Machine.orphan value) Eq :=
  (silent_orphan value).mirrors fun _ _ _ => rfl

theorem mirrors_modifyArray (stamp : Stamp) (change : List Value → List Value) :
    Mirrors twins (modify (Machine.modifyArray stamp change) : Eval PUnit)
      (modify (Machine.modifyArray stamp change)) Eq :=
  (silent_modifyArray stamp change).mirrors fun _ _ _ => rfl

theorem mirrors_load (location : Location) : Mirrors twins location.load location.load Eq := by
  refine mirrors_get.bind fun here there level => ?_
  split
  · rw [level.scopes]
    exact mirrors_pure rfl
  · rw [level.array?]
    dsimp only
    split
    · exact mirrors_pure rfl
    · exact mirrors_throw (crash_ne_error _)

theorem mirrors_define (name : Text) (value : Value) (constant : Bool) :
    Mirrors twins (Machine.define name value constant) (Machine.define name value constant) Eq :=
  fun _ _ level => .ok rfl (level.change (by rw [level.scopes]) level.orphans level.next)

theorem mirrors_store (location : Location) (value : Value) :
    Mirrors twins (location.store value) (location.store value) Eq := by
  refine (mirrors_copy value).seq fun copied => ?_
  obtain ⟨place, constant, root⟩ := location
  cases place with
  | named name =>
      refine mirrors_get.bind fun here there level => ?_
      rw [level.scopes]
      cases here.scopes.assign name copied with
      | error error => exact mirrors_pure rfl
      | ok scopes =>
          refine (mirrors_load _).seq fun old => (mirrors_orphan old).seq fun _ => ?_
          refine Mirrors.seq (fun _ _ level => ?_) fun _ => mirrors_pure rfl
          exact .ok rfl (level.change rfl level.orphans level.next)
  | slot stamp index =>
      exact (mirrors_load _).seq fun old => (mirrors_orphan old).seq fun _ =>
        (mirrors_modifyArray stamp _).seq fun _ => mirrors_pure rfl

end Silent

/-- The errors that are shown are not the same, so they must not be shown under the label. -/
def Options.Apart (options : Options) (label : Text) : Prop :=
  ∀ writer, options.diagnostics = some writer → writer.label ≠ label

section Reports

theorem written_push (machine : Machine) (label : Text) (event : Event) :
    Machine.written label { machine with events := machine.events.push event } =
      machine.written label ++ event.bytesAt label := by
  simp [Machine.written]

theorem mirrors_write (writer : Option Writer) (bytes : Text) :
    Mirrors twins (Machine.write writer bytes) (Machine.write writer bytes) Eq := by
  unfold Machine.write
  split
  · split
    · exact mirrors_pure rfl
    · exact fun _ _ level => .ok rfl
        (level.events _ (written_push _ _ _) (written_push _ _ _))
  · exact mirrors_pure rfl

theorem write_apart {writer : Option Writer} {label : Text}
    (apart : ∀ own, writer = some own → own.label ≠ label) (bytes : Text) (machine : Machine) :
    ∃ events, Machine.write writer bytes machine = .ok () { machine with events } ∧
      Machine.written label { machine with events } = machine.written label := by
  unfold Machine.write
  split
  · next own =>
      split
      · exact ⟨machine.events, rfl, rfl⟩
      · refine ⟨_, rfl, ?_⟩
        rw [written_push, Event.bytesAt, if_neg (apart own rfl), List.append_nil]
  · exact ⟨machine.events, rfl, rfl⟩

theorem mirrors_write_apart {writer : Option Writer}
    (apart : ∀ own, writer = some own → own.label ≠ twins.label) (bytes others : Text) :
    Mirrors twins (Machine.write writer bytes) (Machine.write writer others) Eq := by
  intro here there level
  obtain ⟨events, wrote, kept⟩ := write_apart apart bytes here
  obtain ⟨eventsThere, wroteThere, keptThere⟩ := write_apart apart others there
  rw [wrote, wroteThere]
  refine .ok rfl (level.events [] ?_ ?_)
  · rw [kept, List.append_nil]
  · rw [keptThere, List.append_nil]

variable {options : Options}

theorem mirrors_report (apart : options.Apart twins.label) (error : RuntimeError) :
    Mirrors twins (Machine.report options error) (Machine.report options (error.move twins.lines))
      Eq := by
  refine Mirrors.seq (fun _ _ level => .ok rfl (level.error error)) fun _ => ?_
  dsimp only
  split
  · exact fun _ _ level => .error level
  · exact (mirrors_write_apart apart _ _).seq fun _ => mirrors_pure rfl

theorem mirrors_fail (apart : options.Apart twins.label) (fault : Fault) (pos : Pos) :
    Mirrors twins (Machine.fail options fault pos)
      (Machine.fail options fault (pos.move twins.lines))
      Eq :=
  mirrors_report apart ⟨fault, pos⟩

end Reports

end Rover
