import Rover.Proofs.Asking.Following

/-!
A lexer in use is a cursor over the list of its tokens. Looking ahead and reading on demand do not
show, in whatever order the lexer is asked.
-/

namespace Rover

namespace Lexer

def cursor (lexer : Lexer) : Cursor := ⟨lexer.drain.1⟩

variable (lexer : Lexer)

theorem peek_peek : lexer.peek.2.peek = lexer.peek := by
  obtain ⟨source, pos, ahead⟩ := lexer
  cases ahead <;> rfl

theorem drain_peek : lexer.peek.2.drain = lexer.drain := by
  rw [drain.eq_def lexer.peek.2, drain.eq_def lexer, peek_peek]

theorem cursor_peek : lexer.peek.2.cursor = lexer.cursor :=
  congrArg (fun drained => Cursor.mk drained.1) lexer.drain_peek

theorem cursor_current : lexer.cursor.current = lexer.peek.1 := by
  unfold cursor
  rw [drain]
  split <;> rfl

theorem consume_eq : lexer.consume = (lexer.peek.1,
    if lexer.peek.1.kind = .eof then lexer.peek.2 else { lexer.peek.2 with ahead := none }) := by
  unfold consume
  dsimp only
  split <;> rfl

theorem cursor_consume : lexer.consume.2.cursor = lexer.cursor.moved := by
  rw [consume_eq, Cursor.moved, cursor_current]
  split
  · exact lexer.cursor_peek
  · next more =>
      unfold cursor
      rw [drain.eq_def lexer, if_neg more]
      rfl

theorem consumeIf_eq (kinds : List Kind) : lexer.consumeIf kinds =
    if lexer.peek.1.kind ∈ kinds then (some lexer.peek.1, lexer.consume.2)
    else (none, lexer.peek.2) := by
  have again : lexer.peek.2.consume = (lexer.peek.1, lexer.consume.2) := by
    rw [consume_eq, consume_eq, peek_peek]
  unfold consumeIf
  dsimp only
  simp only [List.contains_iff_mem, again]

theorem drain_ended : ∃ given final, lexer.drain.1 = given ++ [final] ∧ final.kind = .eof ∧
    (∀ token ∈ given, token.kind ≠ .eof) ∧ lexer.drain.2.drain.1 = [final] := by
  fun_induction drain lexer with
  | case1 lexer ends =>
      refine ⟨[], lexer.peek.1, rfl, ends, List.forall_mem_nil _, ?_⟩
      rw [drain, if_pos (by rw [peek_peek]; exact ends), peek_peek]
  | case2 lexer more ih =>
      obtain ⟨given, final, same, ends, goesOn, after⟩ := ih
      exact ⟨lexer.peek.1 :: given, final, congrArg (lexer.peek.1 :: ·) same, ends,
        List.forall_mem_cons.mpr ⟨more, goesOn⟩, after⟩

theorem cursor_drain : lexer.drain.2.cursor =
    ⟨lexer.cursor.left.drop (lexer.cursor.left.length - 1)⟩ := by
  obtain ⟨given, final, same, _, _, after⟩ := lexer.drain_ended
  unfold cursor
  rw [after, same, List.length_append, List.length_singleton, Nat.add_sub_cancel, List.drop_left]

/-- A call does to the cursor what it does to the lexer. -/
theorem answer_cursor (call : Call) :
    lexer.cursor.answer call = ((lexer.answer call).1, (lexer.answer call).2.cursor) := by
  cases call with
  | peek => rw [Cursor.answer, cursor_current, answer, Prod.map_fst, Prod.map_snd, id, cursor_peek]
  | consume =>
      rw [Cursor.answer, cursor_current, answer, Prod.map_fst, Prod.map_snd, id, cursor_consume,
        consume_eq]
  | consumeIf kinds =>
      rw [Cursor.answer, cursor_current, answer, consumeIf_eq]
      split
      · rw [← cursor_consume]
        rfl
      · rw [Prod.map_fst, Prod.map_snd, id, cursor_peek]
        rfl
  | all =>
      rw [Cursor.answer, answer, Prod.map_fst, Prod.map_snd, id, cursor_drain]
      rfl

theorem answers_cursor (calls : List Call) :
    answers answer calls lexer = answers Cursor.answer calls lexer.cursor := by
  induction calls generalizing lexer with
  | nil => rfl
  | cons call calls ih => rw [answers, answers, answer_cursor, ih]

theorem run_cursor {result : Type} (client : Client result) :
    client.run answer lexer = client.run Cursor.answer lexer.cursor := by
  induction client generalizing lexer with
  | done => rfl
  | ask call goOn ih => rw [Client.run, Client.run, answer_cursor, ih]

theorem peek_unread (source : List Char) (pos : Pos) : peek ⟨source, pos, none⟩ =
    ((scan source pos).token,
      ⟨(scan source pos).rest, (scan source pos).pos, some (scan source pos).token⟩) := rfl

theorem drain_unread (source : List Char) (pos : Pos) :
    (drain ⟨source, pos, none⟩).1 = tokensFrom source pos := by
  fun_induction tokensFrom source pos with
  | case1 source pos step ends => rw [drain, peek_unread, if_pos ends]
  | case2 source pos step more ih =>
      rw [drain, peek_unread, if_neg more, ← ih]
      rfl

theorem drain_new (source : Text) : (new source).drain.1 = tokens source :=
  drain_unread source.chars .start

end Lexer

/-- A lexer answers every call as a cursor over the list of all its tokens does. The list ends with
the end of the source, where the cursor stays; no client can tell the two apart, and the parser is
such a client: asking the lexer, it reads from a source what the list spells. -/
theorem lexer_is_cursor (source : Text) :
    ∃ given final, (Lexer.new source).drain.1 = given ++ [final] ∧ final.kind = .eof ∧
      (∀ token ∈ given, token.kind ≠ .eof) ∧
      (∀ calls, answers Lexer.answer calls (.new source) =
        answers Cursor.answer calls ⟨given ++ [final]⟩) ∧
      (∀ call, (Cursor.answer ⟨[final]⟩ call).2 = ⟨[final]⟩) ∧
      (∀ (result : Type) (client : Client result), client.run Lexer.answer (.new source) =
        client.run Cursor.answer ⟨given ++ [final]⟩) ∧
      (∀ fuel, 16 * given.length + 19 < fuel →
        (Asking.program fuel).run Lexer.answer (.new source) = parse source) ∧
      parse source = parseTokens (given ++ [final]) := by
  obtain ⟨given, final, same, ends, goesOn, _⟩ := (Lexer.new source).drain_ended
  have start : (Lexer.new source).cursor = ⟨given ++ [final]⟩ := congrArg Cursor.mk same
  have whole : parse source = parseTokens (given ++ [final]) := by
    rw [← same, Lexer.drain_new, parse]
  refine ⟨given, final, same, ends, goesOn, fun calls => ?_, Cursor.answer_ended ends,
    fun _ client => ?_, fun fuel enough => ?_, whole⟩
  · rw [← start]
    exact Lexer.answers_cursor _ calls
  · rw [← start]
    exact Lexer.run_cursor _ client
  · rw [Lexer.run_cursor, start, whole]
    exact Asking.run_program ends goesOn enough

end Rover
