import Rover.Proofs.Ownership

/-!
Evaluation keeps every array in one place. The value of an expression shares no array with any
variable, and a target that was found lies in the variable that it names, from the first
sub-expression to the last and however the evaluation ends.
-/

namespace Rover

def Expr.root? : Expr → Option Text
  | .name own _ => some own
  | .index base _ _ => base.root?
  | .call (.name callee _) [target, _] _ =>
      if callee = Builtin.push.name then target.root? else none
  | _ => none

mutual

def Expr.writes : Expr → List Text
  | .array elements _ => writesAll elements
  | .unary _ operand _ => operand.writes
  | .binary .assign target value _ => target.root?.toList ++ target.writes ++ value.writes
  | .binary _ left right _ => left.writes ++ right.writes
  | .index base position _ => base.writes ++ position.writes
  | .call (.name callee _) arguments _ =>
      (if callee = Builtin.push.name ∨ callee = Builtin.pop.name then
        (arguments.head?.bind Expr.root?).toList else []) ++ writesAll arguments
  | _ => []

def writesAll : List Expr → List Text
  | [] => []
  | first :: rest => first.writes ++ writesAll rest

end

/-- An action that keeps what is held in order, seen from the machine where a larger one started. -/
def Keeps {α : Type} (may : Text → Prop) (start : Machine) (action : Eval α) (machine : Machine)
    (post : α → Machine → Prop) : Prop :=
  Leads action machine (fun value after => start.Evolves may after ∧ post value after)
    (fun _ after => start.Evolves may after)

/-- An action whose value shares no array with a variable. -/
def Computes (may : Text → Prop) (action : Eval Value) : Prop :=
  ∀ machine, machine.Sound →
    Keeps may machine action machine fun value after => machine.Frees after value.stamps

def Locates (may : Text → Prop) (root : Option Text) (action : Eval Located) : Prop :=
  ∀ machine, machine.Sound →
    Keeps may machine action machine fun found after =>
      ∀ location, found = .ok location → location.Sits machine after ∧ some location.root = root

section Keeps

variable {α β : Type} {may : Text → Prop} {start middle machine : Machine}
  {post : α → Machine → Prop}

theorem keeps_pure {value : α} (evolves : start.Evolves may machine) (done : post value machine) :
    Keeps may start (pure value) machine post :=
  ⟨evolves, done⟩

theorem keeps_throw {stop : Stop} (evolves : start.Evolves may machine) :
    Keeps may start (throw stop : Eval α) machine post :=
  evolves

theorem Keeps.bind {action : Eval α} {next : α → Eval β} {final : β → Machine → Prop}
    (first : Keeps may start action machine post)
    (second : ∀ value after, start.Evolves may after → post value after →
      Keeps may start (next value) after final) :
    Keeps may start (action >>= next) machine final := by
  unfold Keeps
  rw [leads_bind]
  exact Leads.mono first (fun value after reached => second value after reached.1 reached.2)
    fun _ _ stopped => stopped

theorem Keeps.mono {action : Eval α} {final : α → Machine → Prop}
    (keeps : Keeps may start action machine post)
    (implies : ∀ value after, start.Evolves may after → post value after → final value after) :
    Keeps may start action machine final :=
  Leads.mono keeps (fun value after reached => ⟨reached.1, implies value after reached.1 reached.2⟩)
    fun _ _ stopped => stopped

theorem Keeps.since {action : Eval α} (evolves : start.Evolves may middle)
    (keeps : Keeps may middle action machine post) :
    Keeps may start action machine fun value after =>
      middle.Evolves may after ∧ post value after :=
  Leads.mono keeps (fun _ _ reached => ⟨evolves.trans reached.1, reached⟩)
    fun _ _ stopped => evolves.trans stopped

end Keeps

section Primitives

variable {may : Text → Prop} {start machine : Machine}

theorem keeps_kindOf (evolves : start.Evolves may machine) (value : Value) :
    Keeps may start (Machine.kindOf value) machine fun _ after => after = machine := by
  unfold Machine.kindOf
  split
  · exact keeps_pure evolves rfl
  · exact keeps_throw evolves

theorem keeps_write (evolves : start.Evolves may machine) (writer : Option Writer)
    (bytes : Text) :
    Keeps may start (Machine.write writer bytes) machine fun _ after =>
      machine.Evolves may after := by
  have here := Machine.Evolves.refl may evolves.after
  unfold Machine.write
  split
  · split
    · exact keeps_pure evolves here
    · exact ⟨evolves.of_eq rfl rfl rfl, here.of_eq rfl rfl rfl⟩
  · exact keeps_pure evolves here

theorem keeps_report (evolves : start.Evolves may machine) (options : Options)
    (error : RuntimeError) :
    Keeps may start (Machine.report options error) machine fun value _ => value = .nothing := by
  unfold Keeps Machine.report
  rw [leads_bind, leads_modify]
  have recorded : start.Evolves may { machine with errors := machine.errors.push error } :=
    evolves.of_eq rfl rfl rfl
  split
  · exact recorded
  · exact (keeps_write recorded _ _).bind fun _ _ written _ => keeps_pure written rfl

theorem keeps_fail (evolves : start.Evolves may machine) (options : Options) (fault : Fault)
    (pos : Pos) :
    Keeps may start (Machine.fail options fault pos) machine fun value _ => value = .nothing :=
  keeps_report evolves options ⟨fault, pos⟩

theorem keeps_copy (evolves : start.Evolves may machine) (value : Value) :
    Keeps may start (Machine.copy value) machine fun copied after =>
      start.Frees after copied.stamps ∧
        after = { machine with next := (value.copy machine.next).2 } ∧
          copied = (value.copy machine.next).1 := by
  refine ⟨evolves.advance (Value.le_copy_next _ _), ⟨Value.copy_stamps_nodup _ _, ?_, ?_, ?_⟩,
    rfl, rfl⟩
  · exact fun stamp member => (Value.mem_copy_stamps.mp member).2
  · intro stamp member held
    exact Nat.not_le.mpr (evolves.after.bound_lt held) (Value.mem_copy_stamps.mp member).1
  · intro stamp member
    exact .inr (Nat.le_trans evolves.next_le (Value.mem_copy_stamps.mp member).1)

theorem keeps_newArray (evolves : start.Evolves may machine) {elements : List Value}
    (freed : start.Frees machine (Value.stampsAll elements)) :
    Keeps may start (Machine.newArray elements) machine fun value after =>
      start.Frees after value.stamps := by
  have advanced := evolves.advance (Nat.le_succ machine.next)
  refine ⟨advanced, ?_, ?_, ?_, ?_⟩
  · rw [Value.stamps_arr, List.nodup_cons]
    exact ⟨fun member => Nat.lt_irrefl _ (freed.below _ member), freed.once⟩
  · intro stamp member
    rcases List.mem_cons.mp (Value.stamps_arr _ _ ▸ member) with rfl | below
    · exact Nat.lt_succ_self _
    · exact Nat.lt_succ_of_lt (freed.below stamp below)
  · intro stamp member held
    rcases List.mem_cons.mp (Value.stamps_arr _ _ ▸ member) with rfl | below
    · exact Nat.lt_irrefl _ (evolves.after.bound_lt held)
    · exact freed.free stamp below held
  · intro stamp member
    rcases List.mem_cons.mp (Value.stamps_arr _ _ ▸ member) with rfl | below
    · exact .inr evolves.next_le
    · exact freed.owned stamp below

theorem keeps_load {location : Location} (evolves : start.Evolves may machine)
    (sits : location.Sits start machine) :
    Keeps may start location.load machine fun value after =>
      after = machine ∧ ∀ stamp elements, value = .arr stamp elements →
        start.Rooted machine location.root location.constant stamp ∧
          machine.array? stamp = some elements := by
  apply (sits.load evolves).mono
  · rintro value after ⟨rfl, rooted⟩
    exact ⟨evolves, rfl, rooted⟩
  · rintro stop after rfl
    exact evolves

theorem keeps_store {location : Location} (evolves : start.Evolves may machine)
    (sits : location.Sits start machine) (granted : may location.root)
    (free : location.constant = false) (value : Value) :
    Keeps may start (location.store value) machine fun _ _ => True :=
  (sits.store evolves granted free value).mono (fun _ _ stored => ⟨stored, trivial⟩)
    fun _ _ stopped => stopped

theorem keeps_checkIndex (evolves : start.Evolves may machine) (elements : List Value) (pos : Pos)
    (index : Value) :
    Keeps may start (checkIndex elements pos index) machine fun _ after => after = machine := by
  unfold checkIndex
  split
  · split <;> exact keeps_pure evolves rfl
  · exact (keeps_kindOf evolves _).bind fun _ _ evolved same => keeps_pure evolved same

end Primitives

section Operations

variable {may : Text → Prop} {start machine : Machine}

theorem keeps_scalar {value : Value} (evolves : start.Evolves may machine)
    (scalar : value.stamps = []) :
    Keeps may start (pure value) machine fun value _ => value.stamps = [] :=
  keeps_pure evolves scalar

theorem keeps_failing (evolves : start.Evolves may machine) (options : Options) (fault : Fault)
    (pos : Pos) :
    Keeps may start (Machine.fail options fault pos) machine fun value _ => value.stamps = [] :=
  (keeps_fail evolves options fault pos).mono fun value _ _ nothing => by
    rw [nothing, Value.stamps_nothing]

theorem keeps_unary (evolves : start.Evolves may machine) (options : Options) (op : UnaryOp)
    (operand : Value) (pos : Pos) :
    Keeps may start (Operation.unary options op operand pos) machine
      fun value _ => value.stamps = [] := by
  unfold Operation.unary
  split
  · exact keeps_scalar evolves (Value.stamps_int _)
  · exact keeps_scalar evolves (Value.stamps_float _)
  · exact keeps_scalar evolves (Value.stamps_ofBool _)
  · exact keeps_scalar evolves (Value.stamps_ofBool _)
  · exact keeps_throw evolves
  · exact (keeps_kindOf evolves _).bind fun _ _ evolved _ => keeps_failing evolved _ _ _

theorem keeps_mismatch (evolves : start.Evolves may machine) (options : Options) (op : BinaryOp)
    (left right : Value) (pos : Pos) :
    Keeps may start (Operation.mismatch options op left right pos) machine
      fun value _ => value.stamps = [] :=
  (keeps_kindOf evolves left).bind fun _ _ evolved _ =>
    (keeps_kindOf evolved right).bind fun _ _ evolved _ => keeps_failing evolved _ _ _

theorem keeps_arithmetic (evolves : start.Evolves may machine) (options : Options) (op : BinaryOp)
    (left right : Value) (pos : Pos) :
    Keeps may start (Operation.arithmetic options op left right pos) machine
      fun value _ => value.stamps = [] := by
  unfold Operation.arithmetic
  split
  · split
    · exact keeps_scalar evolves (Value.stamps_int _)
    · exact keeps_scalar evolves (Value.stamps_int _)
    · exact keeps_scalar evolves (Value.stamps_int _)
    · split
      · exact keeps_failing evolves _ _ _
      · exact keeps_scalar evolves (Value.stamps_int _)
  · split <;> exact keeps_scalar evolves (Value.stamps_float _)
  · exact keeps_mismatch evolves _ _ _ _ _

theorem keeps_comparison (evolves : start.Evolves may machine) (options : Options) (op : BinaryOp)
    (left right : Value) (pos : Pos) :
    Keeps may start (Operation.comparison options op left right pos) machine
      fun value _ => value.stamps = [] := by
  unfold Operation.comparison
  split
  · exact keeps_scalar evolves (Value.stamps_ofBool _)
  · dsimp only
    split <;> split <;> exact keeps_scalar evolves (Value.stamps_ofBool _)
  · exact keeps_mismatch evolves _ _ _ _ _

theorem keeps_binary (evolves : start.Evolves may machine) (options : Options) (op : BinaryOp)
    (left right : Value) (pos : Pos) :
    Keeps may start (Operation.binary options op left right pos) machine
      fun value _ => value.stamps = [] := by
  unfold Operation.binary
  cases op with
  | and | or => exact keeps_scalar evolves (Value.stamps_ofBool _)
  | add | subtract | multiply | divide => exact keeps_arithmetic evolves _ _ _ _ _
  | equal | notEqual | less | lessEqual | greater | greaterEqual =>
      exact keeps_comparison evolves _ _ _ _ _
  | assign | other _ => exact keeps_throw evolves

end Operations

section Targets

variable {may : Text → Prop} {root : Option Text}

theorem locates_named (name : Text) (pos : Pos) :
    Locates may (some name) (Target.named name pos) := by
  intro machine sound
  have here := Machine.Evolves.refl may sound
  unfold Keeps Target.named
  rw [leads_bind, leads_get]
  cases found : machine.scopes.find? name with
  | none => exact ⟨here, nofun⟩
  | some binding =>
      refine ⟨here, ?_⟩
      rintro location ⟨⟩
      refine ⟨⟨rfl, fun other same => ?_⟩, rfl⟩
      rw [found] at same
      cases same
      rfl

theorem locates_slot (pos : Pos) {array : Eval Located} {index : Eval Value}
    (located : Locates may root array) (evaluated : Computes may index) :
    Locates may root (Target.slot pos array index) := by
  intro machine sound
  apply (located machine sound).bind
  intro found middle reached here
  cases found with
  | error error => exact keeps_pure reached nofun
  | ok base =>
      obtain ⟨sits, rooted⟩ := here base rfl
      apply ((evaluated middle reached.after).since reached).bind
      rintro position later laterReached ⟨onward, _⟩
      apply (keeps_load laterReached (sits.later onward.next_le onward.scopes)).bind
      rintro value after evolved ⟨rfl, inside⟩
      split
      · next stamp elements =>
          apply (keeps_checkIndex evolved elements pos position).bind
          rintro checked _ evolved rfl
          split
          · exact keeps_pure evolved nofun
          · refine keeps_pure evolved ?_
            rintro location ⟨⟩
            exact ⟨(inside stamp elements rfl).1, rooted⟩
      · exact (keeps_kindOf evolved _).bind fun _ _ evolved _ => keeps_pure evolved nofun

structure ArrayAt (start after : Machine) (root : Option Text) (location : Location)
    (stamp : Stamp) : Prop where
  sits : location.Sits start after
  root : some location.root = root
  rooted : start.Rooted after location.root false stamp
  found : ∃ elements, after.array? stamp = some elements

theorem ArrayAt.writable {start after : Machine} {location : Location} {stamp : Stamp}
    (here : ArrayAt start after root location stamp)
    (granted : ∀ name, some name = root → may name) :
    after.scopes.Holds stamp fun name flag => may name ∧ flag = false := by
  apply here.rooted.holds.mono
  rintro name flag ⟨rfl, free⟩
  exact ⟨granted _ here.root, free⟩

theorem keeps_array (builtin : Builtin) (pos : Pos) {target : Eval Located}
    (located : Locates may root target) {machine : Machine} (sound : machine.Sound) :
    Keeps may machine (Target.array builtin pos target) machine fun found after =>
      ∀ location stamp, found = .ok (location, stamp) →
        ArrayAt machine after root location stamp := by
  apply (located machine sound).bind
  intro found middle reached here
  cases found with
  | error error =>
      dsimp only
      split <;> exact keeps_pure reached nofun
  | ok place =>
      obtain ⟨sits, rooted⟩ := here place rfl
      apply (keeps_load reached sits).bind
      rintro value after evolved ⟨rfl, inside⟩
      split
      · next stamp elements =>
          obtain ⟨owner, found⟩ := inside stamp elements rfl
          split
          · exact keeps_pure evolved nofun
          · next free =>
              refine keeps_pure evolved ?_
              rintro location _ ⟨⟩
              rw [Bool.not_eq_true] at free
              exact ⟨sits, rooted, free ▸ owner, elements, found⟩
      · exact (keeps_kindOf evolved _).bind fun _ _ evolved _ => keeps_pure evolved nofun

theorem locates_push (pos : Pos) {target : Eval Located} {value : Eval Value}
    (located : Locates may root target) (evaluated : Computes may value)
    (granted : ∀ name, some name = root → may name) :
    Locates may root (Target.push pos target value) := by
  intro machine sound
  apply (evaluated machine sound).bind
  intro value first began _
  apply ((keeps_array .push pos located began.after).since began).bind
  rintro found second reached ⟨onward, here⟩
  cases found with
  | error error => exact keeps_pure reached nofun
  | ok pair =>
      obtain ⟨location, stamp⟩ := pair
      have holds := (here location stamp rfl).writable granted
      obtain ⟨sits, rooted, owner, elements, found⟩ := here location stamp rfl
      have adds := Value.addsOnly_push (value.copy second.next).1
      have pushed := onward.modifyArray [] owner.owned holds found
        (Value.le_copy_next second.next value) (Value.copy_stamps_nodup second.next value)
        (fun stamp => Value.mem_copy_stamps.mp) adds (by simp) (by simp)
      have stays : location.Sits first (Machine.modifyArray stamp
          (· ++ [(value.copy second.next).1])
          { second with next := (value.copy second.next).2 }) := by
        apply sits.later (Value.le_copy_next second.next value)
        apply Chain.modified_evolved _ holds
        exact fun elements inner member =>
          (adds elements inner member).imp_right fun copied => (Value.mem_copy_stamps.mp copied).1
      refine ⟨began.trans pushed, ?_⟩
      rintro _ ⟨⟩
      exact ⟨stays.earlier began, rooted⟩

end Targets

section Actions

variable {may : Text → Prop} {root : Option Text}

theorem keeps_scalars {start machine : Machine} {action : Eval Value}
    (keeps : Keeps may start action machine fun value _ => value.stamps = []) :
    Keeps may start action machine fun value after => start.Frees after value.stamps :=
  keeps.mono fun _ _ _ scalar => scalar ▸ .nil _ _

theorem keeps_reported {start machine : Machine} (evolves : start.Evolves may machine)
    (options : Options) (error : RuntimeError) :
    Keeps may start (Machine.report options error) machine
      fun value after => start.Frees after value.stamps :=
  (keeps_report evolves options error).mono fun value after _ nothing => by
    rw [nothing, Value.stamps_nothing]
    exact .nil _ _

theorem keeps_copied {start machine : Machine} (evolves : start.Evolves may machine)
    (value : Value) :
    Keeps may start (Machine.copy value) machine
      fun copied after => start.Frees after copied.stamps :=
  (keeps_copy evolves value).mono fun _ _ _ copied => copied.1

theorem computes_readVariable (options : Options) (name : Text) (pos : Pos) :
    Computes may (readVariable options name pos) := by
  intro machine sound
  have here := Machine.Evolves.refl may sound
  unfold Keeps readVariable
  rw [leads_bind, leads_get]
  split
  · exact keeps_copied here _
  · exact keeps_reported here options _

theorem computes_assign (options : Options) (pos : Pos) {target : Eval Located}
    {value : Eval Value} (located : Locates may root target) (evaluated : Computes may value)
    (granted : ∀ name, some name = root → may name) :
    Computes may (assign options pos target value) := by
  intro machine sound
  apply (evaluated machine sound).bind
  intro value first began freed
  apply ((located first began.after).since began).bind
  rintro found second reached ⟨onward, here⟩
  cases found with
  | error error => exact keeps_reported reached options error
  | ok location =>
      obtain ⟨sits, rooted⟩ := here location rfl
      dsimp only
      split
      · exact keeps_reported reached options _
      · next free =>
          have stored :=
            keeps_store onward sits (granted _ rooted) (Bool.not_eq_true _ ▸ free) value
          apply (stored.since began).bind
          rintro result third evolved ⟨after, _⟩
          cases result with
          | error error => exact keeps_reported evolved options _
          | ok _ => exact keeps_pure evolved (freed.later after)

theorem computes_readElement (options : Options) (pos : Pos) {array index : Eval Value}
    (first : Computes may array) (second : Computes may index) :
    Computes may (readElement options pos array index) := by
  intro machine sound
  apply (first machine sound).bind
  intro value middle reached _
  split
  · next stamp elements _ =>
      apply ((second middle reached.after).since reached).bind
      rintro position later evolved _
      apply (keeps_checkIndex evolved elements pos position).bind
      rintro checked _ evolved rfl
      split
      · exact keeps_reported evolved options _
      · exact keeps_copied evolved _
  · exact (keeps_kindOf reached _).bind fun _ _ evolved _ => keeps_reported evolved options _

theorem computes_lengthOf (options : Options) (pos : Pos) {array : Eval Value}
    (evaluated : Computes may array) : Computes may (lengthOf options pos array) := by
  intro machine sound
  apply (evaluated machine sound).bind
  intro value middle reached _
  split
  · exact keeps_pure reached (by rw [Value.stamps_int]; exact .nil _ _)
  · exact (keeps_kindOf reached _).bind fun _ _ evolved _ => keeps_reported evolved options _

theorem computes_pushTo (options : Options) (pos : Pos) {target : Eval Located}
    {value : Eval Value} (located : Locates may root target) (evaluated : Computes may value)
    (granted : ∀ name, some name = root → may name) :
    Computes may (pushTo options pos target value) := by
  intro machine sound
  apply (locates_push pos located evaluated granted machine sound).bind
  intro found middle reached here
  cases found with
  | error error => exact keeps_reported reached options error
  | ok location =>
      apply (keeps_load reached (here location rfl).1).bind
      exact fun loaded after evolved _ => keeps_copied evolved loaded

theorem computes_popFrom (options : Options) (pos : Pos) {target : Eval Located}
    (located : Locates may root target) (granted : ∀ name, some name = root → may name) :
    Computes may (popFrom options pos target) := by
  intro machine sound
  apply (keeps_array .pop pos located sound).bind
  intro found middle reached here
  cases found with
  | error error => exact keeps_reported reached options error
  | ok pair =>
      obtain ⟨location, stamp⟩ := pair
      have holds := (here location stamp rfl).writable granted
      obtain ⟨_, _, owner, elements, found⟩ := here location stamp rfl
      unfold Keeps
      rw [leads_bind, leads_get, found, Option.getD_some]
      cases ending : elements.getLast? with
      | none => exact keeps_pure reached (by rw [Value.stamps_nothing]; exact .nil _ _)
      | some last =>
          have member : last ∈ elements := List.mem_of_getLast? ending
          have inner : ∀ stamp ∈ last.stamps, stamp ∈ Value.stampsAll elements :=
            fun stamp held => Value.mem_stampsAll.mpr ⟨last, member, held⟩
          have popped := reached.modifyArray [last] owner.owned holds found (Nat.le_refl _)
            List.nodup_nil (by simp) Value.addsOnly_dropLast (by simp [member])
            (by simp [Value.stampsAll_dropLast ending])
          refine ⟨popped, .of_orphan popped ?_ ?_⟩
          · have kept : last.modify stamp List.dropLast = last :=
              Value.modify_of_notMem _ fun held =>
                Value.notMem_of_findIn? reached.after.once found (inner stamp held)
            simp [Machine.modifyArray, Value.modifyAll_eq_map, kept]
          · exact fun stamp held => reached.owns_inner owner.owned found (inner stamp held)

theorem keeps_collect {actions : List (Eval Value)}
    (evaluated : ∀ action ∈ actions, Computes may action) {machine : Machine}
    (sound : machine.Sound) :
    Keeps may machine (collect actions) machine fun values after =>
      machine.Frees after (Value.stampsAll values) := by
  induction actions generalizing machine with
  | nil => exact keeps_pure (.refl may sound) (by rw [Value.stampsAll_nil]; exact .nil _ _)
  | cons first rest ih =>
      apply (evaluated first List.mem_cons_self machine sound).bind
      intro value middle reached freed
      have rest := ih (fun action member => evaluated action (List.mem_cons_of_mem _ member))
        reached.after
      apply (rest.since reached).bind
      rintro values after evolved ⟨onward, freedLater⟩
      refine keeps_pure evolved ?_
      rw [Value.stampsAll_cons]
      exact freed.append reached onward freedLater

theorem keeps_fill (options : Options) (pos : Pos) (template : Template) (pending : Text)
    {arguments : List (Eval Value)} (evaluated : ∀ action ∈ arguments, Computes may action)
    {start machine : Machine} (evolves : start.Evolves may machine) :
    Keeps may start (Printf.fill options pos pending template arguments) machine
      fun value after => start.Frees after value.stamps := by
  induction template generalizing pending arguments machine with
  | finish before =>
      refine (keeps_write evolves _ _).bind fun _ _ written _ => keeps_pure written ?_
      rw [Value.stamps_nothing]
      exact .nil _ _
  | malformed before fault =>
      exact (keeps_write evolves _ _).bind fun _ _ written _ => keeps_reported written options _
  | hole before rest ih =>
      cases arguments with
      | nil =>
          exact (keeps_write evolves _ _).bind fun _ _ written _ => keeps_reported written options _
      | cons first others =>
          apply (keeps_write evolves _ _).bind
          intro _ middle written _
          apply ((evaluated first List.mem_cons_self middle written.after).since written).bind
          intro value after evolved _
          exact ih _ (fun action member => evaluated action (List.mem_cons_of_mem _ member)) evolved

theorem computes_printf (options : Options) (pos : Pos) {arguments : List (Eval Value)}
    (evaluated : ∀ action ∈ arguments, Computes may action) :
    Computes may (Printf.call options pos arguments) := by
  intro machine sound
  cases arguments with
  | nil => exact keeps_reported (.refl may sound) options _
  | cons format arguments =>
      apply (evaluated format List.mem_cons_self machine sound).bind
      intro value middle reached _
      split
      · next template _ =>
          have filled := keeps_fill options pos (Template.ofChars template.chars) []
            (fun action member => evaluated action (List.mem_cons_of_mem _ member)) reached
          unfold Keeps
          rw [leads_flushing]
          apply Leads.mono filled
          · rintro value after ⟨evolved, freed⟩
            have flushed := (Machine.Evolves.refl may evolved.after).flushed options.output
            exact ⟨evolved.trans flushed, freed.later flushed⟩
          · exact fun _ after evolved => evolved.flushed options.output
      · exact (keeps_kindOf reached _).bind fun _ _ evolved _ => keeps_reported evolved options _

end Actions

theorem Expr.writes_binary {op : BinaryOp} (differs : op ≠ .assign) (left right : Expr)
    (pos : Pos) :
    (Expr.binary op left right pos).writes = left.writes ++ right.writes := by
  rw [Expr.writes]
  exact differs

theorem Expr.writes_call (callee : Text) (calleePos : Pos) (arguments : List Expr) (pos : Pos) :
    (Expr.call (.name callee calleePos) arguments pos).writes =
      (if callee = Builtin.push.name ∨ callee = Builtin.pop.name then
        (arguments.head?.bind Expr.root?).toList else []) ++ writesAll arguments := by
  rw [Expr.writes]

theorem Builtin.name_of_ofName? {name : Text} {builtin : Builtin}
    (found : Builtin.ofName? name = some builtin) : builtin.name = name :=
  eq_of_beq (List.find?_some found :)

mutual

theorem evaluate_computes (options : Options) {may : Text → Prop} (expr : Expr)
    (granted : ∀ name ∈ expr.writes, may name) : Computes may (evaluate options expr) := by
  cases expr with
  | absent =>
      rw [evaluate]
      exact fun machine sound => keeps_throw (.refl may sound)
  | int digits pos =>
      intro machine sound
      rw [evaluate]
      split
      · exact keeps_scalars (keeps_scalar (.refl may sound) (Value.stamps_int _))
      · exact keeps_reported (.refl may sound) options _
  | float digits pos =>
      intro machine sound
      rw [evaluate]
      split
      · exact keeps_scalars (keeps_scalar (.refl may sound) (Value.stamps_float _))
      · exact keeps_reported (.refl may sound) options _
  | str value pos =>
      intro machine sound
      rw [evaluate]
      exact keeps_scalars (keeps_scalar (.refl may sound) (Value.stamps_str _))
  | name own pos =>
      rw [evaluate]
      exact computes_readVariable options own pos
  | array elements pos =>
      intro machine sound
      rw [Expr.writes] at granted
      rw [evaluate]
      apply (keeps_collect (evaluateEach_computes options elements granted) sound).bind
      exact fun values after evolved freed => keeps_newArray evolved freed
  | unary op operand pos =>
      intro machine sound
      rw [Expr.writes] at granted
      rw [evaluate]
      apply (evaluate_computes options operand granted machine sound).bind
      exact fun value after evolved _ => keeps_scalars (keeps_unary evolved options op value pos)
  | binary op left right pos =>
      by_cases assigns : op = .assign
      · subst assigns
        simp only [Expr.writes, List.mem_append, Option.mem_toList] at granted
        rw [evaluate]
        exact computes_assign options pos
          (locate_locates options left fun name member => granted name (.inl member))
          (evaluate_computes options right fun name member => granted name (.inr member))
          fun name root => granted name (.inl (.inl root.symm))
      · simp only [Expr.writes_binary assigns, List.mem_append] at granted
        rw [evaluate_binary options assigns]
        intro machine sound
        apply (evaluate_computes options left (fun name member => granted name (.inl member))
          machine sound).bind
        intro first middle reached _
        apply ((evaluate_computes options right (fun name member => granted name (.inr member))
          middle reached.after).since reached).bind
        exact fun second after evolved _ =>
          keeps_scalars (keeps_binary evolved options op first second pos)
  | index array index pos =>
      simp only [Expr.writes, List.mem_append] at granted
      rw [evaluate]
      exact computes_readElement options pos
        (evaluate_computes options array fun name member => granted name (.inl member))
        (evaluate_computes options index fun name member => granted name (.inr member))
  | call callee arguments pos =>
      by_cases named : ∃ name namePos, callee = .name name namePos
      · obtain ⟨callee, calleePos, rfl⟩ := named
        simp only [Expr.writes_call, List.mem_append] at granted
        have each := evaluateEach_computes options arguments fun name member =>
          granted name (.inr member)
        rw [evaluate_call]
        split
        · exact fun machine sound => keeps_reported (.refl may sound) options _
        · exact computes_printf options pos each
        · split
          · next array =>
              exact computes_lengthOf options pos (each _ (by simp [evaluateEach]))
          · exact fun machine sound => keeps_reported (.refl may sound) options _
        · next push =>
            split
            · next target value =>
                have isPush := Builtin.name_of_ofName? push
                simp only [← isPush, true_or, if_true, List.head?_cons, Option.bind_some,
                  Option.mem_toList, writesAll, List.mem_append] at granted
                exact computes_pushTo options pos
                  (locate_locates options target fun name member =>
                    granted name (member.imp_right .inl))
                  (each _ (by simp [evaluateEach])) fun name root => granted name (.inl root.symm)
            · exact fun machine sound => keeps_reported (.refl may sound) options _
        · next pop =>
            split
            · next target =>
                have isPop := Builtin.name_of_ofName? pop
                simp only [← isPop, or_true, if_true, List.head?_cons, Option.bind_some,
                  Option.mem_toList, writesAll, List.mem_append] at granted
                exact computes_popFrom options pos
                  (locate_locates options target fun name member =>
                    granted name (member.imp_right .inl))
                  fun name root => granted name (.inl root.symm)
            · exact fun machine sound => keeps_reported (.refl may sound) options _
      · rw [evaluate_call_other options fun name namePos same => named ⟨name, namePos, same⟩]
        exact fun machine sound => keeps_reported (.refl may sound) options _

theorem evaluateEach_computes (options : Options) {may : Text → Prop} (exprs : List Expr)
    (granted : ∀ name ∈ writesAll exprs, may name) :
    ∀ action ∈ evaluateEach options exprs, Computes may action := by
  cases exprs with
  | nil => simp [evaluateEach]
  | cons first rest =>
      simp only [writesAll, List.mem_append] at granted
      rw [evaluateEach, List.forall_mem_cons]
      exact ⟨evaluate_computes options first fun name member => granted name (.inl member),
        evaluateEach_computes options rest fun name member => granted name (.inr member)⟩

theorem locate_locates (options : Options) {may : Text → Prop} (expr : Expr)
    (granted : ∀ name, expr.root? = some name ∨ name ∈ expr.writes → may name) :
    Locates may expr.root? (locate options expr) := by
  cases expr with
  | name own pos =>
      rw [locate, Expr.root?]
      exact locates_named own pos
  | index array index pos =>
      simp only [Expr.root?, Expr.writes, List.mem_append] at granted
      rw [locate, Expr.root?]
      exact locates_slot pos
        (locate_locates options array fun name member => granted name (member.imp_right .inl))
        (evaluate_computes options index fun name member => granted name (.inr (.inr member)))
  | call callee arguments pos =>
      by_cases named : ∃ name namePos, callee = .name name namePos
      · obtain ⟨callee, calleePos, rfl⟩ := named
        rw [locate_call]
        split
        · next isPush =>
            split
            · next target value =>
                subst isPush
                simp only [Expr.root?, Expr.writes_call, true_or, if_true, List.head?_cons,
                  Option.bind_some, Option.mem_toList, writesAll, List.mem_append] at granted
                rw [Expr.root?, if_pos rfl]
                exact locates_push pos
                  (locate_locates options target fun name member => granted name
                    (member.imp_right fun inTarget => .inr (.inl inTarget)))
                  (evaluate_computes options value fun name member =>
                    granted name (.inr (.inr (.inr (.inl member)))))
                  fun name root => granted name (.inl root.symm)
            · exact fun machine sound => keeps_pure (.refl may sound) nofun
        · exact fun machine sound => keeps_pure (.refl may sound) nofun
      · rw [locate_call_other options fun name namePos same => named ⟨name, namePos, same⟩]
        exact fun machine sound => keeps_pure (.refl may sound) nofun
  | _ => exact fun machine sound => keeps_pure (.refl may sound) nofun

end

end Rover
