import Mathlib.Algebra.Group.Nat.Defs
import Mathlib.Data.List.Forall2
import Rover.Proofs.Encoding
import Rover.Text.Quoted

/-!
Quoted text is read back unambiguously. Escapes are told apart by the character after the backslash,
which also tells how many digits belong to them. So whatever stands behind the closing quote, the
pieces of the text between the quotes are known, and it does not matter which characters stand for
themselves.
-/

namespace Rover
namespace Text

theorem hexDigit_injective {first second : Nat} (small : first < 16) (small' : second < 16)
    (same : hexDigit first = hexDigit second) : first = second := by
  have each : ∀ one < 16, ∀ other < 16, hexDigit one = hexDigit other → one = other := by decide
  exact each first small second small' same

theorem length_hex (width number : Nat) : (hex width number).length = width := by
  induction width generalizing number with
  | zero => rfl
  | succ width ih => rw [hex, List.length_append, ih, List.length_singleton]

theorem hex_injective {width first second : Nat} (small : first < 16 ^ width)
    (small' : second < 16 ^ width) (same : hex width first = hex width second) :
    first = second := by
  induction width generalizing first second with
  | zero => omega
  | succ width ih =>
      rw [pow_succ] at small small'
      obtain ⟨higher, lowest⟩ := List.append_inj same (by rw [length_hex, length_hex])
      have quotients :=
        ih (Nat.div_lt_of_lt_mul (by omega)) (Nat.div_lt_of_lt_mul (by omega)) higher
      have digits := hexDigit_injective (Nat.mod_lt _ (by decide)) (Nat.mod_lt _ (by decide))
        (List.singleton_inj.mp lowest)
      omega

/-- How a piece can be written between double quotes. Characters other than the quote and the
backslash may stand for themselves or be escaped. -/
inductive Escaped : Piece → List Char → Prop
  | quote : Escaped (.char '"') ['\\', '"']
  | backslash : Escaped (.char '\\') ['\\', '\\']
  | itself {char : Char} (noQuote : char ≠ '"') (noBackslash : char ≠ '\\') :
      Escaped (.char char) [char]
  | control {char letter : Char} (named : controlLetter? char = some letter) :
      Escaped (.char char) ['\\', letter]
  | byte {char : Char} (low : char.toNat < 0x80) :
    Escaped (.char char) ('\\' :: 'x' :: hex 2 char.toNat)
  | short {char : Char} (small : char.toNat < 0x10000) :
      Escaped (.char char) ('\\' :: 'u' :: hex 4 char.toNat)
  | long {char : Char} : Escaped (.char char) ('\\' :: 'U' :: hex 8 char.toNat)
  | stray {byte : UInt8} (high : 0x80 ≤ byte) :
      Escaped (.stray byte) ('\\' :: 'x' :: hex 2 byte.toNat)

/-- How many digits follow the character after a backslash. -/
def digitsAfter (tag : Char) : Nat :=
  match tag with
  | 'x' => 2
  | 'u' => 4
  | 'U' => 8
  | _ => 0

def escapedPiece (tag : Char) (code : Nat) : Piece :=
  match tag with
  | 'a' => .char '\x07'
  | 'b' => .char '\x08'
  | 'f' => .char '\x0C'
  | 'n' => .char '\n'
  | 'r' => .char '\r'
  | 't' => .char '\t'
  | 'v' => .char '\x0B'
  | 'x' => if code < 0x80 then .char (.ofNat code) else .stray (.ofNat code)
  | 'u' | 'U' => .char (.ofNat code)
  | _ => .char tag

theorem escapedPiece_control {char letter : Char} (named : controlLetter? char = some letter) :
    digitsAfter letter = 0 ∧ escapedPiece letter 0 = .char char := by
  have of {number : Nat} {known : Char} (same : char.toNat = number) (code : known.toNat = number) :
      known = char :=
    Char.toNat_inj.mp (code.trans same.symm)
  unfold controlLetter? at named
  split at named
  all_goals cases named
  all_goals exact ⟨rfl, congrArg Piece.char (of ‹_› rfl)⟩

namespace Escaped

variable {piece piece' : Piece} {chars chars' rest rest' : List Char}

theorem forms (escaped : Escaped piece chars) :
    (∃ char, char ≠ '"' ∧ char ≠ '\\' ∧ piece = .char char ∧ chars = [char]) ∨
      ∃ tag code, code < 16 ^ digitsAfter tag ∧ piece = escapedPiece tag code ∧
        chars = '\\' :: tag :: hex (digitsAfter tag) code := by
  cases escaped with
  | quote => exact .inr ⟨'"', 0, by decide, rfl, rfl⟩
  | backslash => exact .inr ⟨'\\', 0, by decide, rfl, rfl⟩
  | itself noQuote noBackslash => exact .inl ⟨_, noQuote, noBackslash, rfl, rfl⟩
  | @control char letter named =>
      obtain ⟨none, same⟩ := escapedPiece_control named
      refine .inr ⟨letter, 0, ?_, same.symm, ?_⟩
      · rw [none]
        decide
      · rw [none]
        rfl
  | @byte char low =>
      refine .inr ⟨'x', char.toNat, Nat.lt_trans low (by decide), ?_, rfl⟩
      exact (congrArg Piece.char (Char.ofNat_toNat char).symm).trans (if_pos low).symm
  | @short char small =>
      exact .inr ⟨'u', char.toNat, small, congrArg Piece.char (Char.ofNat_toNat char).symm, rfl⟩
  | @long char =>
      refine .inr ⟨'U', char.toNat, ?_, congrArg Piece.char (Char.ofNat_toNat char).symm, rfl⟩
      exact lt_of_lt_of_eq char.val.toNat_lt (by decide)
  | @stray byte high =>
      have large : ¬byte.toNat < 0x80 := Nat.not_lt.mpr (UInt8.le_iff_toNat_le.mp high)
      refine .inr ⟨'x', byte.toNat, byte.toNat_lt, ?_, rfl⟩
      exact (congrArg Piece.stray UInt8.ofNat_toNat.symm).trans (if_neg large).symm

theorem starts (escaped : Escaped piece chars) :
    ∃ first more, chars = first :: more ∧ first ≠ '"' := by
  rcases escaped.forms with ⟨char, noQuote, _, _, rfl⟩ | ⟨tag, code, _, _, rfl⟩
  · exact ⟨char, [], rfl, noQuote⟩
  · exact ⟨'\\', _, rfl, by decide⟩

theorem unique (escaped : Escaped piece chars) (again : Escaped piece' chars')
    (same : chars ++ rest = chars' ++ rest') : piece = piece' ∧ rest = rest' := by
  rcases escaped.forms with ⟨char, _, noBackslash, rfl, rfl⟩ | ⟨tag, code, small, rfl, rfl⟩
  · rcases again.forms with ⟨char', _, _, rfl, rfl⟩ | ⟨tag', code', _, _, rfl⟩
    · obtain ⟨rfl, behind⟩ := List.cons.inj same
      exact ⟨rfl, behind⟩
    · exact absurd (List.cons.inj same).1 noBackslash
  · rcases again.forms with ⟨char', _, noBackslash, _, rfl⟩ | ⟨tag', code', small', rfl, rfl⟩
    · exact absurd (List.cons.inj same).1.symm noBackslash
    · obtain ⟨rfl, digits⟩ := List.cons.inj (List.cons.inj same).2
      obtain ⟨numbers, behind⟩ := List.append_inj digits (by rw [length_hex, length_hex])
      obtain rfl := hex_injective small small' numbers
      exact ⟨rfl, behind⟩

end Escaped

theorem pieces_unique {pieces pieces' : List Piece} {parts parts' : List (List Char)}
    {rest rest' : List Char} (escaped : List.Forall₂ Escaped pieces parts)
    (again : List.Forall₂ Escaped pieces' parts')
    (same : parts.flatten ++ '"' :: rest = parts'.flatten ++ '"' :: rest') :
    pieces = pieces' ∧ rest = rest' := by
  induction escaped generalizing pieces' parts' with
  | nil =>
      cases again with
      | nil => exact ⟨rfl, (List.cons.inj same).2⟩
      | cons here _ =>
          obtain ⟨first, more, rfl, noQuote⟩ := here.starts
          exact absurd (List.cons.inj same).1.symm noQuote
  | cons here _ ih =>
      cases again with
      | nil =>
          obtain ⟨first, more, rfl, noQuote⟩ := here.starts
          exact absurd (List.cons.inj same).1 noQuote
      | cons here' others =>
          rw [List.flatten_cons, List.flatten_cons, List.append_assoc, List.append_assoc] at same
          obtain ⟨rfl, behind⟩ := here.unique here' same
          obtain ⟨rfl, after⟩ := ih others behind
          exact ⟨rfl, after⟩

theorem escaped_escape {piece : Piece} (high : ∀ byte, piece = .stray byte → 0x80 ≤ byte) :
    Escaped piece (piece.escape '"') := by
  cases piece with
  | stray byte => exact .stray (high byte rfl)
  | char letter =>
      rw [Piece.escape, escapeChar]
      split
      · next special =>
          rcases special with rfl | rfl
          · exact .quote
          · exact .backslash
      · next ordinary =>
          obtain ⟨noQuote, noBackslash⟩ := not_or.mp ordinary
          split
          · exact .itself noQuote noBackslash
          · split
            · next named => exact .control named
            · dsimp only
              split
              · next low =>
                  refine .byte ?_
                  simp only [Bool.or_eq_true, decide_eq_true_eq, beq_iff_eq] at low
                  omega
              · split
                · next small => exact .short small
                · exact .long

theorem quoted_escaped (bytes : Text) :
    ∃ parts, List.Forall₂ Escaped bytes.pieces parts ∧
      bytes.quoted = ofChars ('"' :: parts.flatten ++ ['"']) := by
  refine ⟨bytes.pieces.map (Piece.escape '"'), ?_, ?_⟩
  · rw [List.forall₂_map_right_iff, List.forall₂_same]
    rintro piece member
    refine escaped_escape ?_
    rintro byte rfl
    exact stray_high member
  · rw [quoted, List.flatMap_def]

end Text
end Rover
