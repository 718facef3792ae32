import SpacePony.Packages.Builtin.Utf32
import SpacePony.Packages.Json.Value
import SpacePony.Support.Raise

/-!
# Packages — json — the parser

`json_token_parser.pony` and `json_parser.pony`: a recursive descent over the bytes of a document,
which emits tokens to a consumer, and the parser that has the tree builder for its consumer.
-/

namespace SpacePony.Json

open Builtin

/-! ### Characters -/

abbrev openBrace : UInt8 := 0x7B
abbrev closeBrace : UInt8 := 0x7D
abbrev openBracket : UInt8 := 0x5B
abbrev closeBracket : UInt8 := 0x5D
abbrev colon : UInt8 := 0x3A
abbrev comma : UInt8 := 0x2C
abbrev quote : UInt8 := 0x22
abbrev backslash : UInt8 := 0x5C
abbrev minus : UInt8 := 0x2D
abbrev plus : UInt8 := 0x2B
abbrev dot : UInt8 := 0x2E
abbrev zero : UInt8 := 0x30

/-- Whether the byte is a digit. -/
def isDigit (c : UInt8) : Bool := 0x30 ≤ c ∧ c ≤ 0x39

/-- The value of a digit. -/
def digit (c : UInt8) : UInt8 := c - 0x30

/-- The value of a hexadecimal digit, as `_read_hex4` has it. -/
def hexDigit (c : UInt8) : Option UInt32 :=
  if 0x30 ≤ c ∧ c ≤ 0x39 then some (c - 0x30).toUInt32
  else if 0x61 ≤ c ∧ c ≤ 0x66 then some ((c - 0x61).toUInt32 + 10)
  else if 0x41 ≤ c ∧ c ≤ 0x46 then some ((c - 0x41).toUInt32 + 10)
  else none

/-- The byte that an escape of two characters stands for, in `_parse_string`. -/
def unescape (c : UInt8) : Option UInt8 :=
  if c = quote then some quote
  else if c = backslash then some backslash
  else if c = 0x2F then some 0x2F
  else if c = 0x62 then some 0x08
  else if c = 0x66 then some 0x0C
  else if c = 0x6E then some 0x0A
  else if c = 0x72 then some 0x0D
  else if c = 0x74 then some 0x09
  else none

/-! ### The state -/

/-- Why a parse ends: an error, or the bound on the recursion. -/
inductive Failure
  | error
  | fuel

/-- `class JsonTokenParser`. -/
structure JsonTokenParser (N : Type) where
  notify : N
  source : Bytes := []
  offset : Nat := 0
  tokenStart : Nat := 0
  line : Nat := 1
  abort : Bool := false
  lastNumber : JsonNumber := .i64 0
  lastString : Bytes := []
  emitted : List Event := []

/-- A method of the parser. -/
abbrev Parse (N α : Type) := ExceptT Failure (StateM (JsonTokenParser N)) α

namespace JsonTokenParser

variable {N : Type}

/-- What a consumer sees with the token. -/
def event (p : JsonTokenParser N) : JsonToken → Event
  | .null => .null
  | .true => .true
  | .false => .false
  | .number => .number p.lastNumber
  | .string => .string p.lastString
  | .key => .key p.lastString
  | .objectStart => .objectStart
  | .objectEnd => .objectEnd
  | .arrayStart => .arrayStart
  | .arrayEnd => .arrayEnd

/-- `describe_error`. -/
def describeError (p : JsonTokenParser N) : String :=
  if p.offset < p.source.length then
    "Invalid JSON at byte offset " ++ toString p.offset ++ ", line " ++ toString p.line
  else
    "Unexpected end of JSON at byte offset " ++ toString p.source.length ++ ", line " ++
      toString p.line

/-- `token_end`. -/
def tokenEnd (p : JsonTokenParser N) : Nat := p.offset

end JsonTokenParser

section
variable {N : Type}

/-! ### Character primitives -/

/-- `_peek`. -/
def peek : Parse N UInt8 := do
  let p ← get
  match p.source[p.offset]? with
  | some c => pure c
  | none => throw .error

/-- `_peek_safe`. -/
def peekSafe : Parse N UInt8 := do
  let p ← get
  pure (p.source[p.offset]?.getD 0)

/-- One character is passed. -/
def JsonTokenParser.pass (p : JsonTokenParser N) (c : UInt8) : JsonTokenParser N :=
  { p with offset := p.offset + 1, line := if c = 0x0A then p.line + 1 else p.line }

/-- `_next`. -/
def next : Parse N UInt8 := do
  let c ← peek
  modify fun p => p.pass c
  pure c

/-- `_eat`. -/
def eat (expected : UInt8) : Parse N Unit := do
  let c ← peek
  if c ≠ expected then throw .error
  else modify fun p => p.pass expected

/-- Whether the byte is passed over as whitespace. -/
def isWs (c : UInt8) : Bool := c = 0x20 ∨ c = 0x09 ∨ c = 0x0D ∨ c = 0x0A

/-- The loop of `_skip_whitespace`. -/
def skipLoop : Nat → JsonTokenParser N → JsonTokenParser N
  | 0, p => p
  | fuel + 1, p =>
    match p.source[p.offset]? with
    | some c => if isWs c then skipLoop fuel (p.pass c) else p
    | none => p

/-- `_skip_whitespace`. -/
def skipWhitespace : Parse N Unit := modify fun p => skipLoop (p.source.length - p.offset) p

/-- `_token_start = _offset`. -/
def markToken : Parse N Unit := modify fun p => { p with tokenStart := p.offset }

/-! ### Numbers -/

/-- The loop of `_read_digits`, `_read_digits_f64` and `_read_fractional`. -/
def digitsLoop {α : Type} (step : α → UInt8 → α) :
    Nat → α → Nat → JsonTokenParser N → α × Nat × JsonTokenParser N
  | 0, result, count, p => (result, count, p)
  | fuel + 1, result, count, p =>
    match p.source[p.offset]? with
    | some c =>
      if isDigit c then
        digitsLoop step fuel (step result c) (count + 1) { p with offset := p.offset + 1 }
      else (result, count, p)
    | none => (result, count, p)

/-- The digits from here on, and an error if there are none. -/
def readWith {α : Type} (init : α) (step : α → UInt8 → α) : Parse N α := do
  let p ← get
  let (result, count, p') := digitsLoop step (p.source.length - p.offset) init 0 p
  set p'
  if count = 0 then throw .error else pure result

/-- One digit of `_read_digits`. -/
def i64Step (result : Int64) (c : UInt8) : Int64 := result * 10 + Int64.ofNat (digit c).toNat

/-- One digit of `_read_digits_f64`. -/
def f64Step (result : Float) (c : UInt8) : Float := result * 10 + (digit c).toFloat

/-- One digit of `_read_fractional`: the result and the divisor. -/
def fracStep (r : Float × Float) (c : UInt8) : Float × Float :=
  (r.1 + (digit c).toFloat / r.2, r.2 * 10)

/-- `_read_digits`. -/
def readDigits : Parse N Int64 := readWith 0 i64Step

/-- `_read_digits_f64`. -/
def readDigitsF64 : Parse N Float := readWith 0 f64Step

/-- `_read_fractional`. -/
def readFractional : Parse N Float := do
  let r ← readWith (0, 10) fracStep
  pure r.1

/-- The sign of a number. -/
def readSign : Parse N Int64 := do
  let c ← peekSafe
  if c = minus then do
    let _ ← next
    pure (-1)
  else pure 1

/-- The part of a number before the dot: as an integer, as a floating-point number, and whether that
is to be taken. -/
def readInteger : Parse N (Int64 × Float × Bool) := do
  let intStart := (← get).offset
  let integer ← readDigits
  let p ← get
  let intDigits := p.offset - intStart
  if p.source[intStart]? = some zero ∧ intDigits > 1 then throw .error
  else if intDigits > 18 then do
    modify fun p => { p with offset := intStart }
    let integerF64 ← readDigitsF64
    pure (integer, integerF64, true)
  else pure (integer, integer.toFloat, false)

/-- The part of a number after the dot, and whether there is one. -/
def readFrac : Parse N (Bool × Float) := do
  let c ← peekSafe
  if c = dot then do
    let _ ← next
    let frac ← readFractional
    pure (true, frac)
  else pure (false, 0)

/-- The sign of an exponent. -/
def readExpSign : Parse N Int64 := do
  let c ← peek
  if c = plus then do
    let _ ← next
    pure 1
  else if c = minus then do
    let _ ← next
    pure (-1)
  else pure 1

/-- The exponent of a number, and whether there is one. -/
def readExp : Parse N (Bool × Int64) := do
  let c ← peekSafe
  if c = 0x65 ∨ c = 0x45 then do
    let _ ← next
    let expSign ← readExpSign
    let exp ← readDigits
    pure (true, exp * expSign)
  else pure (false, 0)

/-- What `_parse_number` makes of the parts. -/
def makeNumber (sign : Int64) (int : Int64 × Float × Bool) (frac : Bool × Float)
    (exp : Bool × Int64) : JsonNumber :=
  if frac.1 || exp.1 || int.2.2 then
    .f64 (sign.toFloat * (int.2.1 + frac.2) * Float.pow 10 exp.2.toFloat)
  else .i64 (sign * int.1)

/-! ### Strings -/

/-- The loop of `_read_hex4`. -/
def hexLoop : Nat → UInt32 → Parse N UInt32
  | 0, result => pure result
  | i + 1, result => do
      let c ← next
      match hexDigit c with
      | some d => hexLoop i ((result <<< 4) ||| d)
      | none => throw .error

/-- `_read_hex4`. -/
def readHex4 : Parse N UInt32 := hexLoop 4 0

/-- The code point of a pair of surrogates. -/
def combine (value low : UInt32) : UInt32 :=
  (0x10000 : UInt32) + (((value &&& 0x3FF) <<< 10) ||| (low &&& 0x3FF))

/-- `_parse_unicode`. -/
def parseUnicode (buf : Bytes) : Parse N Bytes := do
  let value ← readHex4
  if 0xD800 ≤ value ∧ value < 0xDC00 then do
    eat backslash
    eat 0x75
    let low ← readHex4
    if 0xDC00 ≤ low ∧ low < 0xE000 then
      pure (buf ++ fromUtf32 (combine value low))
    else throw .error
  else if 0xDC00 ≤ value ∧ value < 0xE000 then throw .error
  else pure (buf ++ fromUtf32 value)

/-- The loop of `_parse_string`. -/
def stringLoop : Nat → Bytes → Parse N Bytes
  | 0, _ => throw .fuel
  | fuel + 1, buf => do
      let c ← next
      if c = quote then pure buf
      else if c = backslash then do
        let e ← next
        match unescape e with
        | some b => stringLoop fuel (buf ++ [b])
        | none =>
          if e = 0x75 then do
            let buf ← parseUnicode buf
            stringLoop fuel buf
          else throw .error
      else if c < 0x20 then throw .error
      else stringLoop fuel (buf ++ [c])

/-! ### Productions -/

variable (notify : N → Event → N × Bool)

/-- `_emit`.  The consumer says whether it calls `abort`. -/
def emit (token : JsonToken) : Parse N Unit := do
  modify fun p =>
    let r := notify p.notify (p.event token)
    { p with notify := r.1, abort := p.abort || r.2, emitted := p.emitted ++ [p.event token] }
  let p ← get
  if p.abort then throw .error else pure ()

/-- `_parse_true`, `_parse_false` and `_parse_null`. -/
def parseLiteral (text : List UInt8) (token : JsonToken) : Parse N Unit := do
  text.forM eat
  emit notify token

/-- `_parse_true`. -/
def parseTrue : Parse N Unit := parseLiteral notify [0x74, 0x72, 0x75, 0x65] .true

/-- `_parse_false`. -/
def parseFalse : Parse N Unit := parseLiteral notify [0x66, 0x61, 0x6C, 0x73, 0x65] .false

/-- `_parse_null`. -/
def parseNull : Parse N Unit := parseLiteral notify [0x6E, 0x75, 0x6C, 0x6C] .null

/-- `_parse_number`. -/
def parseNumber : Parse N Unit := do
  let sign ← readSign
  let int ← readInteger
  let frac ← readFrac
  let exp ← readExp
  modify fun p => { p with lastNumber := makeNumber sign int frac exp }
  emit notify .number

/-- `_parse_string`. -/
def parseString (isKey : Bool) : Parse N Unit := do
  eat quote
  markToken
  let p ← get
  let buf ← stringLoop (p.source.length - p.offset + 1) []
  modify fun p => { p with lastString := buf }
  emit notify (if isKey then .key else .string)

mutual

/-- `_parse_value`. -/
def parseValue : Nat → Parse N Unit
  | 0 => throw .fuel
  | fuel + 1 => do
      skipWhitespace
      markToken
      let c ← peek
      if c = openBrace then parseObject fuel
      else if c = openBracket then parseArray fuel
      else if c = quote then parseString notify false
      else if c = 0x74 then parseTrue notify
      else if c = 0x66 then parseFalse notify
      else if c = 0x6E then parseNull notify
      else if c = minus ∨ isDigit c then parseNumber notify
      else throw .error

/-- `_parse_object`. -/
def parseObject : Nat → Parse N Unit
  | 0 => throw .fuel
  | fuel + 1 => do
      let _ ← next
      emit notify .objectStart
      skipWhitespace
      let c ← peek
      if c = closeBrace then do
        let _ ← next
        emit notify .objectEnd
      else objectLoop fuel

/-- The loop of `_parse_object`. -/
def objectLoop : Nat → Parse N Unit
  | 0 => throw .fuel
  | fuel + 1 => do
      skipWhitespace
      markToken
      parseString notify true
      skipWhitespace
      eat colon
      parseValue fuel
      skipWhitespace
      markToken
      let c ← next
      if c = comma then objectLoop fuel
      else if c = closeBrace then emit notify .objectEnd
      else throw .error

/-- `_parse_array`. -/
def parseArray : Nat → Parse N Unit
  | 0 => throw .fuel
  | fuel + 1 => do
      let _ ← next
      emit notify .arrayStart
      skipWhitespace
      let c ← peek
      if c = closeBracket then do
        let _ ← next
        emit notify .arrayEnd
      else arrayLoop fuel

/-- The loop of `_parse_array`. -/
def arrayLoop : Nat → Parse N Unit
  | 0 => throw .fuel
  | fuel + 1 => do
      parseValue fuel
      skipWhitespace
      markToken
      let c ← next
      if c = comma then arrayLoop fuel
      else if c = closeBracket then emit notify .arrayEnd
      else throw .error

end

/-- The bound on the recursion for a document: a value takes one level for itself and two for the
brackets and the loop, and consumes a byte on the way. -/
def bound (source : Bytes) : Nat := 3 * source.length + 1

/-- `JsonTokenParser.parse`. -/
def JsonTokenParser.parse (source : Bytes) : Parse N Unit := do
  modify fun p =>
    { p with source, offset := 0, tokenStart := 0, line := 1, abort := false
             lastNumber := .i64 0, lastString := [] }
  skipWhitespace
  let p ← get
  if p.source.length ≤ p.offset then pure ()
  else do
    parseValue notify (bound source)
    skipWhitespace
    let p ← get
    if p.offset < p.source.length then throw .error else pure ()

end

/-! ### The parser of documents -/

/-- `class JsonParseError`. -/
structure JsonParseError where
  message : String
  offset : Nat
  line : Nat

namespace JsonParser

/-- The tree builder as a consumer: it does not call `abort`. -/
def consume (b : TreeBuilder) (e : Event) : TreeBuilder × Bool := (b.apply e, false)

/-- The run of the tokenizer, with a tree builder for its consumer. -/
def tokenize (source : Bytes) : Except Failure Unit × JsonTokenParser TreeBuilder :=
  JsonTokenParser.parse consume source { notify := {} }

/-- `JsonParser.parse`. -/
def parse (source : Bytes) : Except JsonParseError JsonValue :=
  match tokenize source with
  | (.error _, p) => .error { message := p.describeError, offset := p.tokenEnd, line := p.line }
  | (.ok _, p) =>
    match p.notify.result with
    | some json => .ok json
    | none => .error { message := "Empty input", offset := 0, line := 1 }

end JsonParser

end SpacePony.Json
