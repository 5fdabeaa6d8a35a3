import Rover.Yaml.Tag

/-!
The lexical level of YAML. Indentation is turned into tokens that open and close block collections,
and a scalar is known to be a key only when the colon after it is met, so that the tokens before it
are then completed by those that open the key.
-/

namespace Rover
namespace Yaml

inductive Sign where
  | version (major minor : Nat)
  | tagHandle (handle : TagHandle)
  | documentStart
  | documentEnd
  | sequenceStart
  | mappingStart
  | blockEnd
  | flowSequenceStart
  | flowSequenceEnd
  | flowMappingStart
  | flowMappingEnd
  | flowEntry
  | blockEntry
  | key
  | value
  | reference (name : List Char)
  | anchor (name : List Char)
  | tag (name : TagName)
  | scalar (value : List Char) (plain : Bool)
  deriving DecidableEq, Repr

/-- Lines count from 0. -/
structure Token where
  sign : Sign
  line : Nat
  deriving DecidableEq, Repr

structure Mark where
  offset : Nat
  line : Nat
  col : Nat
  deriving DecidableEq, Repr

def Mark.skip (mark : Mark) : Mark :=
  ⟨mark.offset + 1, mark.line, mark.col + 1⟩

def Mark.skipAll (mark : Mark) (chars : List Char) : Mark :=
  ⟨mark.offset + chars.length, mark.line, mark.col + chars.length⟩

def Mark.newline (mark : Mark) (width : Nat) : Mark :=
  ⟨mark.offset + width, mark.line + 1, 0⟩

def isDocumentIndicator (mark : Mark) : List Char → Bool
  | first :: second :: third :: rest =>
      mark.col == 0 && (first == '-' || first == '.') && second == first && third == first
        && ends rest
  | _ => false

inductive Between where
  | blanks
  | comment
  | comments
  deriving DecidableEq

/-- Whether nothing but blanks and line breaks comes before the next comment. -/
def commentFollows (rest : List Char) : Bool :=
  (rest.dropWhile fun char => isBlank char || isBreak char).head? == some '#'

/-- Skips blanks, comments and line breaks. Where a key may start, a tab is no blank; outside flow
collections a key may start on a new line. Comments in a row are skipped together. -/
def skipBetween (flow : Bool) :
    Between → List Char → Mark → Bool → List Char × Mark × Bool
  | _, [], mark, keyAllowed => ([], mark, keyAllowed)
  | .comment, char :: rest, mark, keyAllowed =>
      if isBreak char then
        if commentFollows rest then
          skipBetween flow .comments rest (mark.newline 1) (keyAllowed || !flow)
        else skipBetween flow .blanks rest (mark.newline 1) (keyAllowed || !flow)
      else skipBetween flow .comment rest mark.skip keyAllowed
  | .comments, char :: rest, mark, keyAllowed =>
      if char == '#' then skipBetween flow .comment rest mark.skip keyAllowed
      else if isBreak char then skipBetween flow .comments rest (mark.newline 1) keyAllowed
      else skipBetween flow .comments rest mark.skip keyAllowed
  | .blanks, char :: rest, mark, keyAllowed =>
      if char == ' ' || (char == '\t' && (flow || !keyAllowed)) then
        skipBetween flow .blanks rest mark.skip keyAllowed
      else if char == '#' then skipBetween flow .comment rest mark.skip keyAllowed
      else if isBreak char then
        skipBetween flow .blanks rest (mark.newline 1) (keyAllowed || !flow)
      else (char :: rest, mark, keyAllowed)

/-- Blanks and line breaks inside a scalar are held back until more of it comes: a single line break
becomes a space, further ones are kept. -/
structure Held where
  spaces : List Char
  /-- The first line break; empty if it was escaped. -/
  first : Option (List Char)
  breaks : List Char

def Held.none : Held := ⟨[], .none, []⟩

def Held.blank (held : Held) (char : Char) : Held :=
  if held.first.isSome then held else { held with spaces := held.spaces ++ [char] }

def Held.break (held : Held) (char : Char) : Held :=
  match held.first with
  | .none => ⟨[], some [normalBreak char], []⟩
  | some _ => { held with breaks := held.breaks ++ [normalBreak char] }

def Held.folded (held : Held) : List Char :=
  match held.first with
  | .none => held.spaces
  | some first =>
      if first = ['\n'] then
        if held.breaks.isEmpty then [' '] else held.breaks
      else first ++ held.breaks

structure Scanned where
  value : List Char
  rest : List Char
  mark : Mark
  /-- Whether line breaks after the scalar were skipped. -/
  broken : Bool

/-- A plain scalar. It ends at a colon before a blank, at a comment, at a document indicator, inside
a flow collection at its punctuation, and outside at a line that is indented less than `indent`. -/
def plain (flow : Bool) (indent : Int) :
    List Char → Mark → (value : List Char) → Held → Option Scanned
  | [], mark, value, held => some ⟨value, [], mark, held.first.isSome⟩
  | char :: rest, mark, value, held =>
      let stop : Option Scanned := some ⟨value, char :: rest, mark, held.first.isSome⟩
      if isBlank char then
        if held.first.isSome && (mark.col : Int) < indent && char == '\t' then none
        else plain flow indent rest mark.skip value (held.blank char)
      else if isBreak char then plain flow indent rest (mark.newline 1) value (held.break char)
      else
        let spaced := held.first.isSome || !held.spaces.isEmpty
        if spaced && !flow && (mark.col : Int) < indent then stop
        else if isDocumentIndicator mark (char :: rest) || (spaced && char == '#') then stop
        else if (char == ':' && ends rest)
            || (flow && [',', '?', '[', ']', '{', '}'].contains char) then stop
        else plain flow indent rest mark.skip (value ++ held.folded ++ [char]) .none

def hexChar? (digits : Nat) (rest : List Char) : Option Char :=
  match (rest.take digits).mapM hexDigit? with
  | some values =>
      let code := values.foldl (fun total digit => 16 * total + digit) 0
      if values.length = digits ∧ code.isValidChar then some (Char.ofNat code) else none
  | none => none

def escape? : Char → Option Char
  | '0' => some '\x00'
  | 'a' => some '\x07'
  | 'b' => some '\x08'
  | 't' | '\t' => some '\t'
  | 'n' => some '\n'
  | 'v' => some '\x0b'
  | 'f' => some '\x0c'
  | 'r' => some '\r'
  | 'e' => some '\x1b'
  | ' ' => some ' '
  | '"' => some '"'
  | '\x27' => some '\x27'
  | '\\' => some '\\'
  | 'N' => some '\x85'
  | '_' => some '\xa0'
  | 'L' => some '\u2028'
  | 'P' => some '\u2029'
  | _ => none

def escapeWidth? : Char → Option Nat
  | 'x' => some 2
  | 'u' => some 4
  | 'U' => some 8
  | _ => none

def quoted (double : Bool) (rest : List Char) (mark : Mark) (value : List Char) (held : Held) :
    Option Scanned :=
  match rest with
  | [] => none
  | char :: after =>
      if isDocumentIndicator mark (char :: after) then none
      else if isBlank char then quoted double after mark.skip value (held.blank char)
      else if isBreak char then quoted double after (mark.newline 1) value (held.break char)
      else
        let value := value ++ held.folded
        if double then
          if char == '"' then some ⟨value, after, mark.skip, false⟩
          else if char == '\\' then
            match after with
            | [] => none
            | letter :: more =>
                if isBreak letter then
                  quoted double more (mark.skip.newline 1) value ⟨[], some [], []⟩
                else
                  match escapeWidth? letter with
                  | some width =>
                      match hexChar? width more with
                      | some code =>
                          quoted double (more.drop width)
                            (mark.skipAll (char :: letter :: more.take width))
                            (value ++ [code]) .none
                      | none => none
                  | none =>
                      match escape? letter with
                      | some code =>
                          quoted double more mark.skip.skip (value ++ [code]) .none
                      | none => none
          else quoted double after mark.skip (value ++ [char]) .none
        else if char == '\x27' then
          match after with
          | '\x27' :: more => quoted double more mark.skip.skip (value ++ ['\x27']) .none
          | _ => some ⟨value, after, mark.skip, false⟩
        else quoted double after mark.skip (value ++ [char]) .none
termination_by rest.length
decreasing_by all_goals (simp_all; try omega)

/-- What is left of a line from its line break on; none if more than a comment stands before. -/
def lineTail? (rest : List Char) : Option (List Char) :=
  let trailing := rest.dropWhile isBlank
  let tail := if trailing.head? = some '#' then trailing.dropWhile (!isBreak ·) else trailing
  if tail.head?.all isBreak then some tail else none

inductive Chomping where
  | strip
  | clip
  | keep
  deriving DecidableEq

/-- The signs after the mark of a block scalar: how its last line break is treated and how deep it
is indented. -/
def blockHeader : List Char → Chomping × Nat × List Char
  | '+' :: rest => (.keep, (depth rest).1, (depth rest).2)
  | '-' :: rest => (.strip, (depth rest).1, (depth rest).2)
  | rest =>
      match depth rest with
      | (0, rest) => (.clip, 0, rest)
      | (found, '+' :: rest) => (.keep, found, rest)
      | (found, '-' :: rest) => (.strip, found, rest)
      | (found, rest) => (.clip, found, rest)
where
  /-- A digit other than zero. -/
  depth : List Char → Nat × List Char
    | char :: rest =>
        if '1' ≤ char ∧ char ≤ '9' then (char.toNat - 48, rest) else (0, char :: rest)
    | [] => (0, [])

def splitLine : List Char → List Char × Option (Char × List Char)
  | [] => ([], none)
  | char :: rest =>
      if isBreak char then ([], some (normalBreak char, rest))
      else (splitLine rest).map (char :: ·) id

/-- Skips indentation and empty lines. A depth of zero is not known yet. -/
def blockBreaks (depth : Nat) :
    List Char → Mark → (deepest : Nat) → (breaks : List Char) →
      Option (List Char × Mark × Nat × List Char)
  | [], mark, deepest, breaks => some ([], mark, max deepest mark.col, breaks)
  | char :: rest, mark, deepest, breaks =>
      if (depth = 0 ∨ mark.col < depth) ∧ char = ' ' then
        blockBreaks depth rest mark.skip deepest breaks
      else if (depth = 0 ∨ mark.col < depth) ∧ char = '\t' then none
      else if isBreak char then
        blockBreaks depth rest (mark.newline 1) (max deepest mark.col)
          (breaks ++ [normalBreak char])
      else some (char :: rest, mark, max deepest mark.col, breaks)

def blockLines (literal : Bool) (depth : Nat) :
    (fuel : Nat) → List Char → Mark → (value first breaks : List Char) → (indented : Bool) →
      Option (List Char × List Char × List Char × List Char × Mark)
  | 0, _, _, _, _, _, _ => none
  | fuel + 1, rest, mark, value, first, breaks, indented =>
      match rest with
      | [] => some (value, first, breaks, [], mark)
      | char :: _ =>
          if mark.col ≠ depth then some (value, first, breaks, rest, mark)
          else
            let joined :=
              if !literal && !indented && !isBlank char && first == ['\n'] then
                if breaks.isEmpty then [' '] else []
              else first
            let (line, after) := splitLine rest
            let value := value ++ joined ++ breaks ++ line
            match after with
            | none => some (value, [], [], [], mark.skipAll line)
            | some (lineBreak, others) =>
                match blockBreaks depth others ((mark.skipAll line).newline 1) 0 [] with
                | none => none
                | some (others, mark, _, breaks) =>
                    blockLines literal depth fuel others mark value [lineBreak] breaks
                      (isBlank char)

def blockScalar (literal : Bool) (indent : Int) (rest : List Char) (mark : Mark) :
    Option Scanned :=
  let (chomping, given, afterHeader) := blockHeader rest
  let start := (lineTail? afterHeader).map fun
    | [] => ([], mark)
    | lineBreak :: lines =>
        (lines, (mark.skipAll (rest.take (rest.length - (lineBreak :: lines).length))).newline 1)
  match start with
  | none => none
  | some (lines, lineMark) =>
      let wanted := if given = 0 then 0 else (max indent 0).toNat + given
      match blockBreaks wanted lines lineMark 0 [] with
      | none => none
      | some (lines, lineMark, deepest, breaks) =>
          let depth := if wanted = 0 then max (max deepest (indent + 1).toNat) 1 else wanted
          match blockLines literal depth (lines.length + 1) lines lineMark [] [] breaks false with
          | none => none
          | some (value, first, breaks, rest, mark) =>
              let kept := match chomping with
                | .strip => []
                | .clip => first
                | .keep => first ++ breaks
              some ⟨value ++ kept, rest, mark, false⟩

/-- A key is where a simple key may have started: the number of its first token, its place, and
whether only a key can stand there. There is one for each flow collection that is open, and one
outside them. -/
structure Key where
  index : Nat
  mark : Mark
  required : Bool

structure Scanner where
  rest : List Char
  mark : Mark
  indent : Int
  indents : List Int
  keyAllowed : Bool
  keys : List (Option Key)
  tokens : List Token
  ended : Bool

namespace Scanner

def new (source : List Char) : Scanner :=
  ⟨source, ⟨0, 0, 0⟩, -1, [], true, [none], [], false⟩

def inFlow (scanner : Scanner) : Bool :=
  1 < scanner.keys.length

def add (scanner : Scanner) (sign : Sign) : Scanner :=
  { scanner with tokens := scanner.tokens ++ [⟨sign, scanner.mark.line⟩] }

def insert (scanner : Scanner) (index : Nat) (token : Token) : Scanner :=
  { scanner with tokens := scanner.tokens.take index ++ token :: scanner.tokens.drop index }

def advance (scanner : Scanner) (count : Nat) : Scanner :=
  { scanner with
    rest := scanner.rest.drop count
    mark := scanner.mark.skipAll (scanner.rest.take count) }

def setKey (scanner : Scanner) (key : Option Key) : Scanner :=
  { scanner with keys := key :: scanner.keys.tail }

def allowKey (scanner : Scanner) (allowed : Bool) : Scanner :=
  { scanner with keyAllowed := allowed }

/-- Gives up the key that may have started; one that is required cannot be given up. -/
def dropKey (scanner : Scanner) : Option Scanner :=
  match scanner.keys with
  | some key :: _ => if key.required then none else some (scanner.setKey none)
  | _ => some scanner

/-- Notes that a key may start here. -/
def saveKey (scanner : Scanner) : Option Scanner :=
  if scanner.keyAllowed then
    scanner.dropKey.map fun scanner =>
      scanner.setKey (some ⟨scanner.tokens.length, scanner.mark,
        !scanner.inFlow && scanner.indent == (scanner.mark.col : Int)⟩)
  else some scanner

def depthLimit : Nat := 10000

def roll (scanner : Scanner) (col index : Nat) (sign : Sign) (line : Nat) : Option Scanner :=
  if !scanner.inFlow && scanner.indent < (col : Int) then
    if scanner.indents.length < depthLimit then
      some { scanner.insert index ⟨sign, line⟩ with
        indent := (col : Int)
        indents := scanner.indent :: scanner.indents }
    else none
  else some scanner

/-- Closes the block collections that are deeper than the column. -/
def unroll (scanner : Scanner) (col : Int) : Scanner :=
  if scanner.inFlow then scanner
  else
    let (closed, kept) :=
      (scanner.indent :: scanner.indents).span (fun indent => col < indent)
    { scanner with
      indent := kept.headD (-1)
      indents := kept.tail
      tokens := scanner.tokens ++ closed.map fun _ => ⟨.blockEnd, scanner.mark.line⟩ }

/-- The key before a colon, if it is still on the same line and not too far off. -/
def keyBeforeColon (scanner : Scanner) : Option (Option Key) :=
  match scanner.keys with
  | some key :: _ =>
      if key.mark.line < scanner.mark.line || key.mark.offset + 1024 < scanner.mark.offset then
        if key.required then none else some none
      else some (some key)
  | _ => some none

def fetchValue (scanner : Scanner) : Option Scanner :=
  match scanner.keyBeforeColon with
  | none => none
  | some (some key) =>
      ((scanner.insert key.index ⟨.key, key.mark.line⟩).roll key.mark.col key.index
        .mappingStart key.mark.line).map fun opened =>
          (((opened.setKey none).allowKey false).add .value).advance 1
  | some none =>
      let scanner := scanner.setKey none
      if scanner.inFlow then some (((scanner.allowKey false).add .value).advance 1)
      else if scanner.keyAllowed then
        (scanner.roll scanner.mark.col scanner.tokens.length .mappingStart scanner.mark.line).map
          fun opened => ((opened.allowKey true).add .value).advance 1
      else none

def fetchMarked (scanner : Scanner) (collection sign : Sign) (allowed : Bool) : Option Scanner :=
  if !scanner.inFlow && !scanner.keyAllowed then none
  else
    let opened := scanner.roll scanner.mark.col scanner.tokens.length collection scanner.mark.line
    (opened.bind dropKey).map fun scanner => ((scanner.allowKey allowed).add sign).advance 1

def fetchFlowStart (scanner : Scanner) (sign : Sign) : Option Scanner :=
  if depthLimit < scanner.keys.length then none
  else
    scanner.saveKey.map fun scanner =>
      (({ scanner with keys := none :: scanner.keys }.allowKey true).add sign).advance 1

def fetchFlowEnd (scanner : Scanner) (sign : Sign) : Option Scanner :=
  scanner.dropKey.map fun scanner =>
    let keys := if scanner.inFlow then scanner.keys.tail else scanner.keys
    (({ scanner with keys }.allowKey false).add sign).advance 1

def fetchFlowEntry (scanner : Scanner) : Option Scanner :=
  scanner.dropKey.map fun scanner => ((scanner.allowKey true).add .flowEntry).advance 1

def fetchDocument (scanner : Scanner) (sign : Sign) : Option Scanner :=
  (scanner.unroll (-1)).dropKey.map fun scanner =>
    ((scanner.allowKey false).add sign).advance 3

def fetchName (scanner : Scanner) (sign : List Char → Sign) : Option Scanner :=
  match scanner.saveKey with
  | none => none
  | some scanner =>
      let name := (scanner.rest.drop 1).takeWhile isNameChar
      let after := (scanner.rest.drop 1).dropWhile isNameChar
      let closed := ends after || match after with
        | char :: _ => ['?', ':', ',', ']', '}', '%', '@', '\x60'].contains char
        | [] => true
      if name ≠ [] ∧ closed then
        some (((scanner.allowKey false).add (sign name)).advance (name.length + 1))
      else none

def lineComment (scanner : Scanner) : Scanner :=
  let blanks := scanner.rest.takeWhile isBlank
  let after := scanner.rest.dropWhile isBlank
  if after.head? = some '#' then
    scanner.advance (blanks.length + (after.takeWhile (!isBreak ·)).length)
  else scanner

def addScalar (scanner : Scanner) (style : Bool) (found : Scanned) : Scanner :=
  { scanner.add (.scalar found.value style) with rest := found.rest, mark := found.mark }

def fetchPlain (scanner : Scanner) : Option Scanner :=
  match scanner.saveKey with
  | none => none
  | some scanner =>
      (plain scanner.inFlow (scanner.indent + 1) scanner.rest scanner.mark [] .none).map
        fun found =>
          if found.broken then (scanner.addScalar true found).allowKey true
          else ((scanner.addScalar true found).allowKey false).lineComment

def fetchQuoted (scanner : Scanner) (double : Bool) : Option Scanner :=
  match scanner.saveKey with
  | none => none
  | some scanner =>
      (quoted double (scanner.rest.drop 1) scanner.mark.skip [] .none).map fun found =>
        (scanner.addScalar false found).allowKey false

def fetchBlock (scanner : Scanner) (literal : Bool) : Option Scanner :=
  match scanner.dropKey with
  | none => none
  | some scanner =>
      (blockScalar literal scanner.indent (scanner.rest.drop 1) scanner.mark.skip).map
        fun found => (scanner.addScalar false found).allowKey true

def fetchTag (scanner : Scanner) : Option Scanner :=
  match scanner.saveKey, tagName? (scanner.rest.drop 1) with
  | some scanner, some (name, after) =>
      if ends after then
        some (((scanner.allowKey false).add (.tag name)).advance
          (scanner.rest.length - after.length))
      else none
  | _, _ => none

def number? (rest : List Char) : Option (Nat × List Char) :=
  let digits := rest.takeWhile Char.isDigit
  if digits ≠ [] ∧ digits.length ≤ 2 then
    some (digits.foldl (fun total digit => 10 * total + (digit.toNat - 48)) 0,
      rest.dropWhile Char.isDigit)
  else none

/-- The directive after its percent sign, and the rest of its line: it tells the version, or what a
handle stands for. -/
def directive? (rest : List Char) : Option (Sign × List Char) :=
  let name := rest.takeWhile isNameChar
  let after := rest.dropWhile isNameChar
  if !ends after then none
  else if name = ['Y', 'A', 'M', 'L'] then
    match number? (after.dropWhile isBlank) with
    | some (major, '.' :: others) =>
        (number? others).map fun (minor, left) => (.version major minor, left)
    | _ => none
  else if name = ['T', 'A', 'G'] then
    match handle? (after.dropWhile isBlank) with
    | some (handle, others) =>
        if others.head?.any isBlank then
          match filledPart? (others.dropWhile isBlank) with
          | some (start, left) =>
              if ends left then some (.tagHandle ⟨handle, start⟩, left) else none
          | none => none
        else none
    | none => none
  else none

def fetchDirective (scanner : Scanner) : Option Scanner :=
  match (scanner.unroll (-1)).dropKey, directive? (scanner.rest.drop 1) with
  | some scanner, some (sign, left) =>
      (lineTail? left).map fun tail =>
        let scanner := ((scanner.allowKey false).add sign).advance
          (scanner.rest.length - tail.length)
        match tail with
        | [] => scanner
        | _ :: after => { scanner with rest := after, mark := scanner.mark.newline 1 }
  | _, _ => none

def fetchEnd (scanner : Scanner) : Option Scanner :=
  (scanner.unroll (-1)).dropKey.map fun scanner => { scanner with ended := true }

/-- The characters that give structure to a document where a node may start. -/
def indicators : List Char :=
  ['-', '?', ':', ',', '[', ']', '{', '}', '#', '&', '*', '!', '|', '>', '\x27', '"', '%', '@',
    '\x60']

def startsPlain (flow : Bool) : List Char → Bool
  | [] => false
  | char :: rest =>
      (!isBlank char && !isBreak char
        && !indicators.contains char)
      || (char == '-' && !(rest.head?.any isBlank))
      || (!flow && (char == '?' || char == ':') && !ends rest)

def fetchToken (scanner : Scanner) : Option Scanner :=
  let flow := scanner.inFlow
  match scanner.rest with
  | [] => scanner.fetchEnd
  | char :: rest =>
      if char == '%' && scanner.mark.col == 0 then scanner.fetchDirective
      else if isDocumentIndicator scanner.mark scanner.rest then
        scanner.fetchDocument (if char == '-' then .documentStart else .documentEnd)
      else
        let commented (next : Option Scanner) : Option Scanner := next.map lineComment
        if char == '[' then commented (scanner.fetchFlowStart .flowSequenceStart)
        else if char == '{' then commented (scanner.fetchFlowStart .flowMappingStart)
        else if char == ']' then commented (scanner.fetchFlowEnd .flowSequenceEnd)
        else if char == '}' then commented (scanner.fetchFlowEnd .flowMappingEnd)
        else if char == ',' then commented scanner.fetchFlowEntry
        else if char == '-' && ends rest then
          scanner.fetchMarked .sequenceStart .blockEntry true
        else if char == '?' && (flow || ends rest) then
          commented (scanner.fetchMarked .mappingStart .key (!flow))
        else if char == ':' && (flow || ends rest) then commented scanner.fetchValue
        else if char == '*' then commented (scanner.fetchName .reference)
        else if char == '&' then commented (scanner.fetchName .anchor)
        else if char == '!' then commented scanner.fetchTag
        else if char == '|' && !flow then scanner.fetchBlock true
        else if char == '>' && !flow then scanner.fetchBlock false
        else if char == '\x27' then commented (scanner.fetchQuoted false)
        else if char == '"' then commented (scanner.fetchQuoted true)
        else if startsPlain flow scanner.rest then scanner.fetchPlain
        else none

/-- One step: what lies before the next token is skipped and the indentation is adjusted. -/
def step (scanner : Scanner) : Option Scanner :=
  let (rest, mark, keyAllowed) :=
    skipBetween scanner.inFlow .blanks scanner.rest scanner.mark scanner.keyAllowed
  ({ scanner with rest, mark, keyAllowed }.unroll mark.col).fetchToken

/-- Whether a token may yet turn out to be the start of a key. -/
def mayBeKey (scanner : Scanner) (index : Nat) : Bool :=
  scanner.keys.any fun
    | some key =>
        key.index == index && scanner.mark.line ≤ key.mark.line
          && scanner.mark.offset ≤ key.mark.offset + 1024
    | none => false

/-- How many tokens can be handed out when `handed` were handed out before. A token is handed out
once two more are known and it is settled whether it starts a key. -/
def settled (scanner : Scanner) : (fuel handed : Nat) → Nat
  | 0, handed => handed
  | fuel + 1, handed =>
      if handed + 2 < scanner.tokens.length && !scanner.mayBeKey handed then
        scanner.settled fuel (handed + 1)
      else handed

/-- All tokens, or those that were handed out before the first error. Every step but the last uses
up a character, so that `fuel` steps suffice for a source of fewer characters. -/
def run : (fuel handed : Nat) → Scanner → List Token × Bool
  | 0, handed, scanner => (scanner.tokens.take handed, false)
  | fuel + 1, handed, scanner =>
      let handed := scanner.settled scanner.tokens.length handed
      match scanner.step with
      | none => (scanner.tokens.take handed, false)
      | some next => if next.ended then (next.tokens, true) else run fuel handed next

end Scanner

/-- The tokens of a source as far as they can be had; the flag tells whether these are all. -/
def tokens? (source : Text) : Option (List Token × Bool) :=
  match decoded? source with
  | some chars =>
      if chars.all isAllowed then
        some ((Scanner.new (joinBreaks chars)).run (chars.length + 1) 0)
      else none
  | none => none

end Yaml
end Rover
