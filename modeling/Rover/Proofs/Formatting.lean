import Rover.Proofs.Composition
import Rover.Proofs.Strictness

/-!
Batched output. `printf` holds text back until an argument is evaluated, a fault is met or the
format ends. Once neighbouring writes are joined, it leaves the same trace as a plain `printf`,
which writes every character of the format and every text of an argument at once.
-/

namespace Rover

namespace Printf

/-- A format is made of characters, escapes and placeholders, up to a fault in it. -/
inductive Item where
  | literal (char : Char)
  | escape (char : Char)
  | placeholder
  | malformed (fault : Fault)

def items : List Char → List Item
  | [] => []
  | ['\\'] => [.malformed .trailingBackslash]
  | '\\' :: letter :: rest =>
      match Template.escape? letter with
      | some char => .escape char :: items rest
      | none => [.malformed (.unknownEscape letter)]
  | '{' :: '}' :: rest => .placeholder :: items rest
  | char :: rest => .literal char :: items rest

/-- Prints the items one by one, each at once, with the text of the next argument for a
placeholder. -/
def walk (options : Options) (pos : Pos) : List Item → List (Eval Value) → Eval Value
  | [], _ => return .nothing
  | .literal char :: rest, arguments => do
      Machine.write options.output (Text.ofChars [char])
      walk options pos rest arguments
  | .escape char :: rest, arguments => do
      Machine.write options.output (Text.ofChars [char])
      walk options pos rest arguments
  | .placeholder :: _, [] => Machine.fail options .tooFewArguments pos
  | .placeholder :: rest, argument :: arguments => do
      let value ← argument
      Machine.write options.output value.printed
      walk options pos rest arguments
  | .malformed fault :: _, _ => Machine.fail options fault pos

end Printf

namespace Event

/-- An event is joined to the one before if both are writes to one writer. The events before are
listed from the last on. -/
def onto : Event → List Event → List Event
  | .wrote label bytes, .wrote own before :: earlier =>
      if own = label then .wrote own (before ++ bytes) :: earlier
      else .wrote label bytes :: .wrote own before :: earlier
  | event, earlier => event :: earlier

def joined (events : List Event) : List Event :=
  (events.foldl (fun earlier event => event.onto earlier) []).reverse

theorem onto_onto (label first second : Text) (earlier : List Event) :
    (wrote label second).onto ((wrote label first).onto earlier) =
      (wrote label (first ++ second)).onto earlier := by
  cases earlier with
  | nil => simp [onto]
  | cons event earlier =>
      cases event with
      | flushed => simp [onto]
      | wrote own before =>
          by_cases same : own = label
          · simp [onto, same]
          · simp [onto, same]

theorem joined_append {events others : List Event} (same : joined events = joined others)
    (more : List Event) : joined (events ++ more) = joined (others ++ more) := by
  unfold joined at same ⊢
  rw [List.foldl_append, List.foldl_append, List.reverse_inj.mp same]

end Event

def Machine.writing (writer : Option Writer) (bytes : Text) : List Event :=
  if bytes.isEmpty then [] else writer.toList.map fun writer => .wrote writer.label bytes

section Formatting

variable {options : Options} {α β : Type}

theorem write_writing (writer : Option Writer) (bytes : Text) (machine : Machine) :
    ∃ events, Machine.write writer bytes machine = .ok () { machine with events } ∧
      events.toList = machine.events.toList ++ Machine.writing writer bytes := by
  unfold Machine.write Machine.writing
  cases writer with
  | none => exact ⟨machine.events, rfl, by simp⟩
  | some writer =>
      dsimp only
      split
      · exact ⟨machine.events, rfl, by simp⟩
      · exact ⟨_, rfl, by simp⟩

theorem joined_writing (writer : Option Writer) (events : List Event) (first second : Text) :
    Event.joined (events ++ Machine.writing writer (first ++ second)) =
      Event.joined (events ++ Machine.writing writer first ++ Machine.writing writer second) := by
  unfold Machine.writing
  cases writer with
  | none => simp
  | some writer =>
      cases first with
      | nil => simp
      | cons byte bytes =>
          cases second with
          | nil => simp
          | cons other others =>
              simp only [Event.joined, List.cons_append, List.isEmpty_cons, Bool.false_eq_true,
                if_false, Option.toList_some, List.map_cons, List.map_nil, List.foldl_append,
                List.foldl_cons, List.foldl_nil]
              rw [Event.onto_onto, List.cons_append]

/-- What was written before makes no difference to the action: it adds to it the same events. -/
def Oblivious (action : Eval α) : Prop :=
  ∀ machine, ∃ added : Array Event, ∀ events, action { machine with events } =
    changing (fun after => { after with events := events ++ added }) (action machine)

theorem oblivious_silent {action : Eval α}
    (silent : ∀ machine events, action { machine with events } =
      changing (fun after => { after with events }) (action machine)) : Oblivious action := by
  refine fun machine => ⟨#[], fun events => ?_⟩
  rw [silent, Array.append_empty]

theorem oblivious_look {next : Machine → Eval α}
    (ignores : ∀ machine events, next { machine with events } = next machine)
    (each : ∀ machine, Oblivious (next machine)) : Oblivious (get >>= next) := by
  intro machine
  obtain ⟨added, same⟩ := each machine machine
  refine ⟨added, fun events => ?_⟩
  exact (congrFun (ignores machine events) _).trans (same events)

theorem Oblivious.bind {action : Eval α} {next : α → Eval β} (first : Oblivious action)
    (second : ∀ value, Oblivious (next value)) : Oblivious (action >>= next) := by
  intro machine
  obtain ⟨added, same⟩ := first machine
  cases ended : action machine with
  | error stop after =>
      refine ⟨added, fun events => ?_⟩
      have begun := same events
      rw [ended] at begun
      rw [bind_of_error ended, bind_of_error begun]
      rfl
  | ok value after =>
      obtain ⟨more, onward⟩ := second value after
      refine ⟨added ++ more, fun events => ?_⟩
      have begun := same events
      rw [ended] at begun
      rw [bind_of_ok ended, bind_of_ok begun, onward, Array.append_assoc]

theorem oblivious_write (writer : Option Writer) (bytes : Text) :
    Oblivious (Machine.write writer bytes) := by
  unfold Machine.write
  split
  · next writer =>
      split
      · exact oblivious_silent fun _ _ => rfl
      · refine fun machine => ⟨#[.wrote writer.label bytes], fun events => ?_⟩
        change EStateM.Result.ok () { machine with events := events.push _ } =
          .ok () { machine with events := events ++ #[_] }
        rw [Array.push_eq_append]
  · exact oblivious_silent fun _ _ => rfl

theorem oblivious_report (error : RuntimeError) : Oblivious (Machine.report options error) := by
  refine Oblivious.bind (oblivious_silent fun _ _ => rfl) fun _ => ?_
  have throws : Oblivious (throw (.error error) : Eval PUnit) := oblivious_silent fun _ _ => rfl
  have writes : Oblivious (do
      Machine.write options.diagnostics (text "runtime error: " ++ error.shown ++ text "\n")
      return Value.nothing) :=
    (oblivious_write _ _).bind fun _ => oblivious_silent fun _ _ => rfl
  dsimp only
  split
  · exact throws.bind fun _ => writes
  · exact writes

theorem oblivious_load (location : Location) : Oblivious location.load := by
  refine oblivious_look (fun _ _ => rfl) fun machine => ?_
  split
  · exact oblivious_silent fun _ _ => rfl
  · dsimp only
    split <;> exact oblivious_silent fun _ _ => rfl

theorem oblivious_store (location : Location) (value : Value) :
    Oblivious (location.store value) := by
  unfold Location.store
  refine Oblivious.bind (oblivious_silent fun _ _ => rfl) fun copied => ?_
  split
  · refine oblivious_look (fun _ _ => rfl) fun machine => ?_
    split
    · exact oblivious_silent fun _ _ => rfl
    · refine (oblivious_load location).bind fun loaded => ?_
      exact oblivious_silent fun _ _ => rfl
  · refine (oblivious_load location).bind fun loaded => ?_
    exact oblivious_silent fun _ _ => rfl

theorem flushed_eq (writer : Option Writer) : ∃ more : Array Event, ∀ machine : Machine,
    machine.flushed writer = { machine with events := machine.events ++ more } := by
  unfold Machine.flushed
  split
  · split
    · exact ⟨#[.flushed], fun machine => by rw [Array.push_eq_append]⟩
    · exact ⟨#[], fun machine => by rw [Array.append_empty]⟩
  · exact ⟨#[], fun machine => by rw [Array.append_empty]⟩

theorem oblivious_flushing (writer : Option Writer) {action : Eval α}
    (oblivious : Oblivious action) : Oblivious (Machine.flushing writer action) := by
  obtain ⟨more, flushes⟩ := flushed_eq writer
  intro machine
  obtain ⟨added, same⟩ := oblivious machine
  refine ⟨added ++ more, fun events => ?_⟩
  rw [flushing_eq_changing, flushing_eq_changing, same]
  cases action machine with
  | ok value after => simp only [changing, flushes, Array.append_assoc]
  | error stop after => simp only [changing, flushes, Array.append_assoc]

theorem oblivious_universal (options : Options) : Universal options Oblivious where
  pure _ := oblivious_silent fun _ _ => rfl
  throw _ := oblivious_silent fun _ _ => rfl
  bind := Oblivious.bind
  report := oblivious_report
  look := oblivious_look
  copy _ := oblivious_silent fun _ _ => rfl
  newArray _ := oblivious_silent fun _ _ => rfl
  orphan _ := oblivious_silent fun _ _ => rfl
  load := oblivious_load
  store := oblivious_store
  modifyArray _ _ := oblivious_silent fun _ _ => rfl
  write := oblivious_write options.output
  flushing := oblivious_flushing options.output

/-- The batched run ends as the plain one does, and wrote the same but for where one write ends and
the next begins. -/
def Batched (batched plain : EStateM.Result Stop Machine α) : Prop :=
  ∃ events, batched = changing (fun after => { after with events }) plain ∧
    Event.joined events.toList = Event.joined (reached plain).events.toList

theorem Oblivious.batched {action : Eval α} (oblivious : Oblivious action) {machine : Machine}
    {events : Array Event}
    (same : Event.joined events.toList = Event.joined machine.events.toList) :
    Batched (action { machine with events }) (action machine) := by
  obtain ⟨added, adds⟩ := oblivious machine
  refine ⟨events ++ added, adds events, ?_⟩
  have own : (reached (action machine)).events = machine.events ++ added := by
    have plain := congrArg (fun result => (reached result).events) (adds machine.events)
    refine plain.trans ?_
    cases action machine <;> rfl
  rw [own, Array.toList_append, Array.toList_append]
  exact Event.joined_append same added.toList

theorem Batched.bind {batched plain : Eval α} {next next' : α → Eval β} {here there : Machine}
    (first : Batched (batched here) (plain there))
    (second : ∀ value after events,
      Event.joined events.toList = Event.joined after.events.toList →
        Batched (next value { after with events }) (next' value after)) :
    Batched ((batched >>= next) here) ((plain >>= next') there) := by
  obtain ⟨events, ended, same⟩ := first
  cases begun : plain there with
  | error stop after =>
      rw [begun] at ended same
      rw [bind_of_error begun, bind_of_error ended]
      exact ⟨events, rfl, same⟩
  | ok value after =>
      rw [begun] at ended same
      rw [bind_of_ok begun, bind_of_ok ended]
      exact second value after events same

/-- What was held back is written before an action that the plain run is about to do. -/
theorem batched_write {pending : Text} {machine : Machine} {events : Array Event}
    {action plain : Eval α}
    (held : Event.joined (events.toList ++ Machine.writing options.output pending) =
      Event.joined machine.events.toList)
    (onward : ∀ events, Event.joined events.toList = Event.joined machine.events.toList →
      Batched (action { machine with events }) (plain machine)) :
    Batched ((do Machine.write options.output pending; action : Eval α) { machine with events })
      (plain machine) := by
  obtain ⟨written, wrote, added⟩ := write_writing options.output pending { machine with events }
  rw [bind_of_ok wrote]
  exact onward written ((congrArg Event.joined added).trans held)

namespace Template

def ofItems : List Printf.Item → Template
  | [] => finish []
  | .literal char :: rest | .escape char :: rest => (ofItems rest).prepend (Text.ofChars [char])
  | .placeholder :: rest => hole [] (ofItems rest)
  | .malformed fault :: _ => malformed [] fault

theorem ofItems_items (chars : List Char) : ofItems (Printf.items chars) = ofChars chars := by
  induction chars using ofChars.induct with
  | case1 => rfl
  | case2 => rfl
  | case3 letter rest char known ih =>
      rw [ofChars, Printf.items, known]
      exact congrArg (prepend (Text.ofChars [char])) ih
  | case4 letter rest unknown =>
      rw [ofChars, Printf.items, unknown]
      rfl
  | case5 rest ih => rw [ofChars, Printf.items, ofItems, ih]
  | case6 char rest _ _ _ ih =>
      rw [ofChars, Printf.items, ofItems, ih]
      all_goals assumption

end Template

theorem fill_prepend (options : Options) (pos : Pos) (pending bytes : Text) (template : Template)
    (actions : List (Eval Value)) :
    Printf.fill options pos pending (template.prepend bytes) actions =
      Printf.fill options pos (pending ++ bytes) template actions := by
  cases template with
  | hole before rest =>
      cases actions <;> simp only [Template.prepend, Printf.fill, List.append_assoc]
  | _ => simp only [Template.prepend, Printf.fill, List.append_assoc]

/-- The plain run writes a text at once that the batched run holds back. -/
theorem batched_hold {pending bytes : Text} {machine : Machine} {events : Array Event}
    {batched : EStateM.Result Stop Machine α} {plain : Eval α}
    (held : Event.joined (events.toList ++ Machine.writing options.output pending) =
      Event.joined machine.events.toList)
    (onward : ∀ later : Machine, { later with events } = { machine with events } →
      Event.joined (events.toList ++ Machine.writing options.output (pending ++ bytes)) =
        Event.joined later.events.toList → Batched batched (plain later)) :
    Batched batched ((do Machine.write options.output bytes; plain : Eval α) machine) := by
  obtain ⟨written, wrote, added⟩ := write_writing options.output bytes machine
  rw [bind_of_ok wrote]
  apply onward { machine with events := written } rfl
  rw [joined_writing, added]
  exact Event.joined_append held _

-- The induction is on the items. Between two of them the plain run has written what the batched run
-- still holds back.
theorem fill_batched (pos : Pos) (items : List Printf.Item) {actions : List (Eval Value)}
    (oblivious : ∀ action ∈ actions, Oblivious action) {pending : Text} {machine : Machine}
    {events : Array Event}
    (held : Event.joined (events.toList ++ Machine.writing options.output pending) =
      Event.joined machine.events.toList) :
    Batched
      (Printf.fill options pos pending (Template.ofItems items) actions { machine with events })
      (Printf.walk options pos items actions machine) := by
  have fails (fault : Fault) : Oblivious (Machine.fail options fault pos) := oblivious_report _
  induction items generalizing actions pending machine events with
  | nil =>
      rw [← List.append_nil pending] at held
      exact batched_write held fun events same => ⟨events, rfl, same⟩
  | cons item rest ih =>
      cases item with
      | literal char | escape char =>
          change Batched (Printf.fill options pos pending
            ((Template.ofItems rest).prepend (Text.ofChars [char])) actions _) _
          rw [fill_prepend]
          exact batched_hold held fun later alike held => alike ▸ ih oblivious held
      | malformed fault =>
          rw [← List.append_nil pending] at held
          exact batched_write held fun events same => (fails fault).batched same
      | placeholder =>
          rw [← List.append_nil pending] at held
          cases actions with
          | nil => exact batched_write held fun events same => (fails .tooFewArguments).batched same
          | cons argument others =>
              rw [List.forall_mem_cons] at oblivious
              refine batched_write held fun events same => ?_
              refine (oblivious.1.batched same).bind fun value after events same => ?_
              have empty : Event.joined (events.toList ++ Machine.writing options.output []) =
                  Event.joined after.events.toList := by
                rw [← same]
                exact congrArg Event.joined (List.append_nil _)
              exact batched_hold empty fun later alike held => alike ▸ ih oblivious.2 held

end Formatting

/-- A call of `printf` does what the plain one does: it writes the same, reports the same errors,
ends in the same way and leaves the same variables. However it ends, it then flushes its output
once. -/
theorem printf_batches (options : Options) {machine state : Machine} {format : Expr} {bytes : Text}
    (formatted : evaluate options format machine = .ok (.str bytes) state) (namePos : Pos)
    (arguments : List Expr) (pos : Pos) :
    let plain := Printf.walk options pos (Printf.items bytes.chars)
      (evaluateEach options arguments) state
    ∃ events, evaluate options
        (.call (.name Builtin.printf.name namePos) (format :: arguments) pos) machine =
          changing (fun after => Machine.flushed options.output { after with events }) plain ∧
      Event.joined events.toList = Event.joined (reached plain).events.toList := by
  intro plain
  have oblivious := (oblivious_universal options).evaluateEach arguments
  have nothing : Event.joined (state.events.toList ++ Machine.writing options.output []) =
      Event.joined state.events.toList :=
    congrArg Event.joined (List.append_nil _)
  obtain ⟨events, filled, same⟩ := fill_batched pos (Printf.items bytes.chars) oblivious nothing
  refine ⟨events, ?_, same⟩
  have called : evaluate options
      (.call (.name Builtin.printf.name namePos) (format :: arguments) pos) machine =
        Machine.flushing options.output (Printf.fill options pos []
          (Template.ofChars bytes.chars) (evaluateEach options arguments)) state :=
    (congrFun (evaluate_call options _ _ _ _) machine).trans (bind_of_ok formatted)
  rw [called, flushing_eq_changing, ← Template.ofItems_items]
  refine (congrArg (changing _) filled).trans ?_
  change changing _ (changing _ plain) = _
  cases plain <;> rfl

def innerPrintf : Expr :=
  .call (.name Builtin.printf.name .unknown) [.str (text "c") .unknown] .unknown

/-- What a call as an argument writes comes between the text before its placeholder and the text
behind. -/
theorem printf_batches_nested :
    ∃ after, evaluate ⟨false, 0, some ⟨text "out", true⟩, none⟩
        (.call (.name Builtin.printf.name .unknown)
          [.str (text "a\x7b\x7db") .unknown, innerPrintf] .unknown) Machine.new =
            .ok .nothing after ∧
      Event.joined after.events.toList =
        [.wrote (text "out") (text "ac"), .flushed, .wrote (text "out") (text "INVALIDb"),
          .flushed] := by
  let options : Options := ⟨false, 0, some ⟨text "out", true⟩, none⟩
  have formatted : evaluate options (.str (text "a\x7b\x7db") .unknown) Machine.new =
      .ok (.str (text "a\x7b\x7db")) Machine.new := rfl
  have outer : Text.chars (text "a\x7b\x7db") = ['a', '{', '}', 'b'] := by decide +kernel
  have inner : Text.chars (text "c") = ['c'] := by decide +kernel
  have printed : evaluateEach options [innerPrintf] =
      [Machine.flushing options.output
        (Printf.fill options .unknown [] (.finish (text "c")) [])] := by
    change [(Machine.flushing options.output (Printf.fill options .unknown []
      (Template.ofChars (Text.chars (text "c"))) []) : Eval Value)] = _
    rw [inner]
    rfl
  obtain ⟨events, ended, joined⟩ := printf_batches options formatted .unknown [innerPrintf] .unknown
  rw [outer, printed] at ended joined
  refine ⟨_, ended, ?_⟩
  have flushed : (Machine.flushed options.output ⟨[[]], [], 0, #[], events⟩).events.toList =
      events.toList ++ [.flushed] := Array.toList_push
  exact (congrArg Event.joined flushed).trans ((Event.joined_append joined [.flushed]).trans rfl)

end Rover
