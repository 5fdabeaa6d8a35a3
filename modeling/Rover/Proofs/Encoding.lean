import Rover.Text

/-!
Characters are read back from their bytes. The first byte of a character tells how many there are,
so what comes after a character does not matter. Cutting a text into pieces loses nothing of it
either.
-/

namespace Rover
namespace Text

theorem toNat_ofNat {number : Nat} (small : number < 256) :
    (UInt8.ofNat number).toNat = number := by
  rw [UInt8.toNat_ofNat', Nat.mod_eq_of_lt small]

theorem charOfCode?_val {char : Char} {least : Nat} (large : least ≤ char.val.toNat) :
    charOfCode? least char.val.toNat = some char := by
  unfold charOfCode?
  rw [if_pos ⟨large, char.valid⟩, show char.val.toNat = char.toNat from rfl, Char.ofNat_toNat]

theorem isContinuation_ofNat (number : Nat) :
    isContinuation (UInt8.ofNat (number % 64 + 128)) = true := by
  have small : number % 64 + 128 < 256 := by omega
  simp only [isContinuation, Bool.and_eq_true, decide_eq_true_eq, UInt8.le_iff_toNat_le,
    UInt8.lt_iff_toNat_lt, toNat_ofNat small, UInt8.toNat_ofNat]
  omega

theorem tailBits_ofNat (number : Nat) :
    tailBits (UInt8.ofNat (number % 64 + 128)) = number % 64 := by
  rw [tailBits, toNat_ofNat (by omega)]
  omega

theorem twoBytes?_ofNat {code : Nat} (fits : code ≤ 0x7FF) :
    twoBytes? (UInt8.ofNat (code / 64 % 32 + 192)) (UInt8.ofNat (code % 64 + 128)) =
      charOfCode? 0x80 code := by
  have small : code / 64 % 32 + 192 < 256 := by omega
  have lead : (code / 64 % 32 + 192) % 32 * 64 + code % 64 = code := by omega
  simp only [twoBytes?, isContinuation_ofNat, tailBits_ofNat, Bool.and_true, Bool.and_eq_true,
    decide_eq_true_eq, UInt8.le_iff_toNat_le, UInt8.lt_iff_toNat_lt, toNat_ofNat small,
    UInt8.toNat_ofNat, lead]
  exact if_pos (by omega)

theorem threeBytes?_ofNat {code : Nat} (fits : code ≤ 0xFFFF) :
    threeBytes? (UInt8.ofNat (code / 4096 % 16 + 224)) (UInt8.ofNat (code / 64 % 64 + 128))
      (UInt8.ofNat (code % 64 + 128)) = charOfCode? 0x800 code := by
  have small : code / 4096 % 16 + 224 < 256 := by omega
  have lead : (code / 4096 % 16 + 224) % 16 * 4096 + code / 64 % 64 * 64 + code % 64 = code := by
    omega
  simp only [threeBytes?, isContinuation_ofNat, tailBits_ofNat, Bool.and_true, Bool.and_eq_true,
    decide_eq_true_eq, UInt8.le_iff_toNat_le, UInt8.lt_iff_toNat_lt, toNat_ofNat small,
    UInt8.toNat_ofNat, lead]
  exact if_pos (by omega)

theorem fourBytes?_ofNat {code : Nat} (fits : code < 0x200000) :
    fourBytes? (UInt8.ofNat (code / 262144 % 8 + 240)) (UInt8.ofNat (code / 4096 % 64 + 128))
      (UInt8.ofNat (code / 64 % 64 + 128)) (UInt8.ofNat (code % 64 + 128)) =
        charOfCode? 0x10000 code := by
  have small : code / 262144 % 8 + 240 < 256 := by omega
  have lead : (code / 262144 % 8 + 240) % 8 * 262144 + code / 4096 % 64 * 4096 +
      code / 64 % 64 * 64 + code % 64 = code := by omega
  simp only [fourBytes?, isContinuation_ofNat, tailBits_ofNat, Bool.and_true, Bool.and_eq_true,
    decide_eq_true_eq, UInt8.le_iff_toNat_le, UInt8.lt_iff_toNat_lt, toNat_ofNat small,
    UInt8.toNat_ofNat, lead]
  exact if_pos (by omega)

theorem twoBytes?_above {first : UInt8} (above : 0xE0 ≤ first.toNat) (second : UInt8) :
    twoBytes? first second = none := by
  unfold twoBytes?
  refine if_neg fun fits => ?_
  simp only [Bool.and_eq_true, decide_eq_true_eq, UInt8.lt_iff_toNat_lt, UInt8.toNat_ofNat] at fits
  omega

theorem threeBytes?_above {first : UInt8} (above : 0xF0 ≤ first.toNat) (second third : UInt8) :
    threeBytes? first second third = none := by
  unfold threeBytes?
  refine if_neg fun fits => ?_
  simp only [Bool.and_eq_true, decide_eq_true_eq, UInt8.lt_iff_toNat_lt, UInt8.toNat_ofNat] at fits
  omega

theorem not_lt_lead {first : UInt8} (above : 0x80 ≤ first.toNat) : ¬first < 0x80 := by
  simp only [UInt8.lt_iff_toNat_lt, UInt8.toNat_ofNat]
  omega

theorem firstPiece_encoded (char : Char) (rest : Text) :
    ∃ first more, String.utf8EncodeChar char = first :: more ∧
      firstPiece first (more ++ rest) = (.char char, more.length) := by
  have valid : char.val.toNat < 0x110000 := by
    have either := char.valid
    unfold UInt32.isValidChar Nat.isValidChar at either
    omega
  unfold String.utf8EncodeChar
  dsimp only
  split
  · next single =>
      have small : char.val.toNat < 256 := by omega
      have below : UInt8.ofNat char.val.toNat < 0x80 := by
        simp only [UInt8.lt_iff_toNat_lt, toNat_ofNat small, UInt8.toNat_ofNat]
        omega
      refine ⟨_, _, rfl, ?_⟩
      rw [firstPiece.eq_def, if_pos below, toNat_ofNat small]
      exact congrArg (fun letter => (Piece.char letter, 0)) (Char.ofNat_toNat char)
  · split
    · next more double =>
        have lead : 0x80 ≤ (UInt8.ofNat (char.val.toNat / 64 % 32 + 192)).toNat := by
          rw [toNat_ofNat (by omega)]
          omega
        have read := twoBytes?_ofNat double
        rw [charOfCode?_val (by omega)] at read
        refine ⟨_, _, rfl, ?_⟩
        rw [firstPiece.eq_def, if_neg (not_lt_lead lead)]
        match rest with
        | [] => simp only [List.cons_append, List.nil_append, read]; rfl
        | [_] => simp only [List.cons_append, List.nil_append, read]; rfl
        | _ :: _ :: _ => simp only [List.cons_append, List.nil_append, read]; rfl
    · split
      · next many triple =>
          have lead : 0xE0 ≤ (UInt8.ofNat (char.val.toNat / 4096 % 16 + 224)).toNat := by
            rw [toNat_ofNat (by omega)]
            omega
          have read := threeBytes?_ofNat triple
          rw [charOfCode?_val (by omega)] at read
          refine ⟨_, _, rfl, ?_⟩
          rw [firstPiece.eq_def, if_neg (not_lt_lead (Nat.le_trans (by decide) lead))]
          match rest with
          | [] => simp only [List.cons_append, List.nil_append, twoBytes?_above lead, read]; rfl
          | _ :: _ => simp only [List.cons_append, List.nil_append, twoBytes?_above lead, read]; rfl
      · next many =>
          have lead : 0xF0 ≤ (UInt8.ofNat (char.val.toNat / 262144 % 8 + 240)).toNat := by
            rw [toNat_ofNat (by omega)]
            omega
          have read := fourBytes?_ofNat (Nat.lt_trans valid (by decide))
          rw [charOfCode?_val (by omega)] at read
          refine ⟨_, _, rfl, ?_⟩
          rw [firstPiece.eq_def, if_neg (not_lt_lead (Nat.le_trans (by decide) lead))]
          simp only [List.cons_append, List.nil_append,
            twoBytes?_above (Nat.le_trans (by decide) lead), threeBytes?_above lead, read]
          rfl

theorem pieces_encoded (char : Char) (rest : Text) :
    pieces (String.utf8EncodeChar char ++ rest) = .char char :: pieces rest := by
  obtain ⟨first, more, encoded, read⟩ := firstPiece_encoded char rest
  rw [encoded, List.cons_append, pieces, read, List.drop_left]

theorem pieces_ofChars (chars : List Char) : pieces (ofChars chars) = chars.map .char := by
  induction chars with
  | nil => simp [pieces]
  | cons char rest ih => rw [ofChars_cons, pieces_encoded, ih, List.map_cons]

theorem chars_ofChars (characters : List Char) : (ofChars characters).chars = characters := by
  unfold chars
  rw [pieces_ofChars, List.map_map]
  exact List.map_id characters

theorem ofChars_injective {first second : List Char} (same : ofChars first = ofChars second) :
    first = second := by
  rw [← chars_ofChars first, same, chars_ofChars]

theorem toNat_of_charOfCode? {least code : Nat} {char : Char}
    (found : charOfCode? least code = some char) : char.val.toNat = code ∧ least ≤ code := by
  unfold charOfCode? at found
  split at found
  · next fits =>
      cases found
      refine ⟨?_, fits.1⟩
      rw [Char.ofNat, dif_pos fits.2]
      rfl
  · cases found

theorem isContinuation_iff {byte : UInt8} :
    isContinuation byte = true ↔ 0x80 ≤ byte.toNat ∧ byte.toNat < 0xC0 := by
  simp only [isContinuation, Bool.and_eq_true, decide_eq_true_eq, UInt8.le_iff_toNat_le,
    UInt8.lt_iff_toNat_lt, UInt8.toNat_ofNat]

theorem ofNat_eq {number : Nat} (byte : UInt8) (same : number = byte.toNat) :
    UInt8.ofNat number = byte := by
  rw [same, UInt8.ofNat_toNat]

theorem bytes_of_twoBytes? {first second : UInt8} {char : Char}
    (read : twoBytes? first second = some char) : String.utf8EncodeChar char = [first, second] := by
  unfold twoBytes? at read
  split at read
  · next fits =>
      simp only [Bool.and_eq_true, decide_eq_true_eq, isContinuation_iff, UInt8.le_iff_toNat_le,
        UInt8.lt_iff_toNat_lt, UInt8.toNat_ofNat] at fits
      obtain ⟨code, least⟩ := toNat_of_charOfCode? read
      unfold tailBits at code least
      unfold String.utf8EncodeChar
      dsimp only
      rw [code, if_neg (by omega), if_pos (by omega), ofNat_eq first (by omega),
        ofNat_eq second (by omega)]
  · cases read

theorem bytes_of_threeBytes? {first second third : UInt8} {char : Char}
    (read : threeBytes? first second third = some char) :
    String.utf8EncodeChar char = [first, second, third] := by
  unfold threeBytes? at read
  split at read
  · next fits =>
      simp only [Bool.and_eq_true, decide_eq_true_eq, isContinuation_iff, UInt8.le_iff_toNat_le,
        UInt8.lt_iff_toNat_lt, UInt8.toNat_ofNat] at fits
      obtain ⟨code, least⟩ := toNat_of_charOfCode? read
      unfold tailBits at code least
      unfold String.utf8EncodeChar
      dsimp only
      rw [code, if_neg (by omega), if_neg (by omega), if_pos (by omega),
        ofNat_eq first (by omega), ofNat_eq second (by omega),
        ofNat_eq third (by omega)]
  · cases read

theorem bytes_of_fourBytes? {first second third fourth : UInt8} {char : Char}
    (read : fourBytes? first second third fourth = some char) :
    String.utf8EncodeChar char = [first, second, third, fourth] := by
  unfold fourBytes? at read
  split at read
  · next fits =>
      simp only [Bool.and_eq_true, decide_eq_true_eq, isContinuation_iff, UInt8.le_iff_toNat_le,
        UInt8.lt_iff_toNat_lt, UInt8.toNat_ofNat] at fits
      obtain ⟨code, least⟩ := toNat_of_charOfCode? read
      unfold tailBits at code least
      unfold String.utf8EncodeChar
      dsimp only
      rw [code, if_neg (by omega), if_neg (by omega), if_neg (by omega),
        ofNat_eq first (by omega), ofNat_eq second (by omega),
        ofNat_eq third (by omega), ofNat_eq fourth (by omega)]
  · cases read

theorem bytes_of_single {first : UInt8} (low : first < 0x80) :
    String.utf8EncodeChar (Char.ofNat first.toNat) = [first] := by
  have small : first.toNat < 0x80 := by simpa [UInt8.lt_iff_toNat_lt] using low
  have valid : first.toNat.isValidChar := .inl (by omega)
  have code : (Char.ofNat first.toNat).val.toNat = first.toNat := by
    rw [Char.ofNat, dif_pos valid]
    rfl
  unfold String.utf8EncodeChar
  dsimp only
  rw [code, if_pos (by omega), ofNat_eq first rfl]

/-- The first piece stands for the bytes that it takes up. -/
theorem firstPiece_bytes (first : UInt8) (rest : Text) :
    (firstPiece first rest).1.bytes = first :: rest.take (firstPiece first rest).2 := by
  unfold firstPiece
  split
  · next low => exact bytes_of_single low
  · split
    · split
      · exact bytes_of_twoBytes? ‹_›
      · exact bytes_of_threeBytes? ‹_›
      · exact bytes_of_fourBytes? ‹_›
      · rfl
    · split
      · exact bytes_of_twoBytes? ‹_›
      · exact bytes_of_threeBytes? ‹_›
      · rfl
    · split
      · exact bytes_of_twoBytes? ‹_›
      · rfl
    · rfl

theorem bytes_pieces (bytes : Text) : bytes.pieces.flatMap Piece.bytes = bytes := by
  fun_induction pieces bytes with
  | case1 => rfl
  | case2 first rest ih =>
      rw [List.flatMap_cons, ih, firstPiece_bytes, List.cons_append, List.take_append_drop]

theorem pieces_injective {first second : Text} (same : first.pieces = second.pieces) :
    first = second := by
  rw [← bytes_pieces first, same, bytes_pieces]

theorem firstPiece_stray {first byte : UInt8} {rest : Text}
    (stray : (firstPiece first rest).1 = .stray byte) : 0x80 ≤ byte := by
  have whole := firstPiece_bytes first rest
  rw [stray] at whole
  obtain rfl : byte = first := (List.cons.inj whole).1
  refine UInt8.not_lt.mp fun low => ?_
  rw [firstPiece.eq_def, if_pos low] at stray
  cases stray

theorem stray_high {bytes : Text} {byte : UInt8} (stray : .stray byte ∈ bytes.pieces) :
    0x80 ≤ byte := by
  fun_induction pieces bytes with
  | case1 => cases stray
  | case2 first rest ih =>
      rcases List.mem_cons.mp stray with here | later
      · exact firstPiece_stray here.symm
      · exact ih later

end Text
end Rover
