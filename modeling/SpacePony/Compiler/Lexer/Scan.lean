import SpacePony.Compiler.Ast.Lexint
import SpacePony.Compiler.Ast.Token
import SpacePony.Support.Hoare

/-!
# Compiler — the lexer

`ast/lexer.c`, function by function.  A character is a byte; `isalpha` and its relatives are
those of the C locale.  The program faults where the source would fail an assertion or read
outside the text.
-/

namespace SpacePony.Lexing

open Syntax

/-! ### State -/

/-- What ends a run of the lexer. -/
inductive Fault where
  /-- `pony_assert` fails. -/
  | assertion
  /-- An index outside the text. -/
  | outOfBounds
  /-- A loop goes on for more rounds than there are characters. -/
  | endless
  deriving DecidableEq

/-- An error for the user. -/
structure LexError where
  line : Nat
  pos : Nat
  message : String
  deriving DecidableEq

/-- The literal of a token.  A real is kept as the numbers that `token_set_float` computes it
from: `significand * 10 ^ (± exponent - mantissaDigits)`. -/
inductive TokenText where
  | blank
  | string (s : List Char)
  | integer (n : Lexint)
  | real (significand exponent : Lexint) (expNeg : Bool) (mantissaDigits : Nat)
  deriving DecidableEq

/-- `token_t`. -/
structure Token where
  id : TokenId
  text : TokenText
  line : Nat
  pos : Nat
  newline : Bool
  deriving DecidableEq

/-- `lexer_t`.  `source` is the text without its terminator, `buffer` the part of the buffer in
use. -/
structure Lexer where
  source : List Char
  allowTestSymbols : Bool
  ptr : Nat
  len : Nat
  line : Nat
  pos : Nat
  newline : Bool
  tokenNewline : Bool
  tokenLine : Nat
  tokenPos : Nat
  buffer : List Char
  errors : List LexError

/-- A function of the lexer. -/
abbrev LexM := StateT Lexer (Except Fault)

/-- `symbols`. -/
def symbols : List (List Char × TokenId) :=
  [("...".toList, .tkEllipsis), ("->".toList, .tkArrow), ("=>".toList, .tkDblarrow),
    ("<<~".toList, .tkLshiftTilde), (">>~".toList, .tkRshiftTilde), ("==~".toList, .tkEqTilde),
    ("!=~".toList, .tkNeTilde), ("<=~".toList, .tkLeTilde), (">=~".toList, .tkGeTilde),
    ("<~".toList, .tkLtTilde), (">~".toList, .tkGtTilde), ("+~".toList, .tkPlusTilde),
    ("-~".toList, .tkMinusTilde), ("*~".toList, .tkMultiplyTilde), ("/~".toList, .tkDivideTilde),
    ("%%~".toList, .tkModTilde), ("%~".toList, .tkRemTilde), ("<<".toList, .tkLshift),
    (">>".toList, .tkRshift), ("==".toList, .tkEq), ("!=".toList, .tkNe), ("<=".toList, .tkLe),
    (">=".toList, .tkGe), (".>".toList, .tkChain), ("<:".toList, .tkSubtype),
    ("\\".toList, .tkBackslash), ("@\x7b".toList, .tkAtLbrace), ("\x7b".toList, .tkLbrace),
    ("\x7d".toList, .tkRbrace), ("(".toList, .tkLparen), (")".toList, .tkRparen),
    ("[".toList, .tkLsquare), ("]".toList, .tkRsquare), (",".toList, .tkComma),
    (".".toList, .tkDot), ("~".toList, .tkTilde), (":".toList, .tkColon), (";".toList, .tkSemi),
    ("=".toList, .tkAssign), ("+".toList, .tkPlus), ("-".toList, .tkMinus),
    ("*".toList, .tkMultiply), ("/".toList, .tkDivide), ("%%".toList, .tkMod),
    ("%".toList, .tkRem), ("@".toList, .tkAt), ("<".toList, .tkLt), (">".toList, .tkGt),
    ("|".toList, .tkPipe), ("&".toList, .tkIsecttype), ("^".toList, .tkEphemeral),
    ("!".toList, .tkAliased), ("?".toList, .tkQuestion), ("-".toList, .tkUnaryMinus),
    ("#".toList, .tkConstant), ("(".toList, .tkLparenNew), ("[".toList, .tkLsquareNew),
    ("-~".toList, .tkMinusTildeNew), ("-".toList, .tkMinusNew)]

/-- `keywords`. -/
def keywords : List (List Char × TokenId) :=
  [("compile_intrinsic".toList, .tkCompileIntrinsic), ("use".toList, .tkUse),
    ("type".toList, .tkType), ("interface".toList, .tkInterface), ("trait".toList, .tkTrait),
    ("primitive".toList, .tkPrimitive), ("struct".toList, .tkStruct), ("class".toList, .tkClass),
    ("actor".toList, .tkActor), ("object".toList, .tkObject), ("enum".toList, .tkEnum),
    ("tuple".toList, .tkTuple), ("as".toList, .tkAs), ("is".toList, .tkIs),
    ("isnt".toList, .tkIsnt), ("var".toList, .tkVar), ("let".toList, .tkLet),
    ("embed".toList, .tkEmbed), ("new".toList, .tkNew), ("fun".toList, .tkFun),
    ("be".toList, .tkBe), ("iso".toList, .tkIso), ("trn".toList, .tkTrn), ("ref".toList, .tkRef),
    ("val".toList, .tkVal), ("box".toList, .tkBox), ("tag".toList, .tkTag),
    ("nhb".toList, .tkNhb), ("this".toList, .tkThis), ("return".toList, .tkReturn),
    ("break".toList, .tkBreak), ("continue".toList, .tkContinue), ("consume".toList, .tkConsume),
    ("recover".toList, .tkRecover), ("comptime".toList, .tkComptime), ("if".toList, .tkIf),
    ("ifdef".toList, .tkIfdef), ("iftype".toList, .tkIftypeSet), ("then".toList, .tkThen),
    ("else".toList, .tkElse), ("elseif".toList, .tkElseif), ("end".toList, .tkEnd),
    ("for".toList, .tkFor), ("in".toList, .tkIn), ("while".toList, .tkWhile),
    ("do".toList, .tkDo), ("repeat".toList, .tkRepeat), ("until".toList, .tkUntil),
    ("match".toList, .tkMatch), ("where".toList, .tkWhere), ("try".toList, .tkTry),
    ("with".toList, .tkWith), ("error".toList, .tkError),
    ("compile_error".toList, .tkCompileError), ("asm".toList, .tkAsm), ("not".toList, .tkNot),
    ("and".toList, .tkAnd), ("or".toList, .tkOr), ("xor".toList, .tkXor),
    ("digestof".toList, .tkDigestof), ("addressof".toList, .tkAddress),
    ("alignas".toList, .tkAlignas), ("__loc".toList, .tkLocation), ("true".toList, .tkTrue),
    ("false".toList, .tkFalse), ("#read".toList, .tkCapRead), ("#send".toList, .tkCapSend),
    ("#share".toList, .tkCapShare), ("#alias".toList, .tkCapAlias), ("#any".toList, .tkCapAny),
    ("$noseq".toList, .tkTestNoSeq), ("$scope".toList, .tkTestSeqScope),
    ("$try_no_check".toList, .tkTestTryNoCheck), ("$aliased".toList, .tkTestAliased),
    ("$updatearg".toList, .tkTestUpdatearg), ("$extra".toList, .tkTestExtra),
    ("$ifdefand".toList, .tkIfdefand), ("$ifdefor".toList, .tkIfdefor),
    ("$ifdefnot".toList, .tkIfdefnot), ("$flag".toList, .tkIfdefflag),
    ("$let".toList, .tkMatchCapture), ("$dontcare".toList, .tkMatchDontcare),
    ("$iftype".toList, .tkIftype)]

/-! ### The text -/

/-- `isspace`. -/
def isSpace (c : Char) : Bool :=
  c = ' ' || c = '\t' || c = '\n' || c = '\x0b' || c = '\x0c' || c = '\r'

/-- `lex_error_at`. -/
def lexErrorAt (line pos : Nat) (message : String) : LexM Unit :=
  modify fun s => { s with errors := s.errors ++ [⟨line, pos, message⟩] }

/-- `lex_error`. -/
def lexError (message : String) : LexM Unit := do
  let s ← get
  lexErrorAt s.tokenLine s.tokenPos message

/-- `is_eof`. -/
def isEof : LexM Bool := do
  let s ← get
  pure (s.len == 0)

/-- `append_to_token`. -/
def appendToToken (c : Char) : LexM Unit :=
  modify fun s => { s with buffer := s.buffer ++ [c] }

/-- A token at the current position. -/
def tokenAt (s : Lexer) (id : TokenId) (text : TokenText) : Token :=
  ⟨id, text, s.tokenLine, s.tokenPos, s.tokenNewline⟩

/-- `make_token`, with a literal set afterwards. -/
def makeTokenSet (id : TokenId) (text : TokenText) : LexM Token := do
  let s ← get
  pure (tokenAt s id text)

/-- `make_token`. -/
def makeToken (id : TokenId) : LexM Token := makeTokenSet id .blank

/-- `make_token_with_text`. -/
def makeTokenWithText (id : TokenId) : LexM Token := do
  let s ← get
  makeTokenSet id (.string s.buffer)

/-- `lexer->source->m[i]`. -/
def sourceAt (i : Nat) : LexM Char := do
  let s ← get
  match s.source[i]? with
  | some c => pure c
  | none => throw .outOfBounds

/-- The position after `count` characters, the first of which is `c`. -/
def moved (s : Lexer) (c : Char) (count : Nat) : Lexer :=
  { s with
    line := if c = '\n' then s.line + 1 else s.line
    pos := (if c = '\n' then 0 else s.pos) + count
    ptr := s.ptr + count
    len := s.len - count }

/-- `consume_chars`. -/
def consumeChars (count : Nat) : LexM Unit := do
  let s ← get
  if s.len < count then throw .assertion
  else if count = 0 then pure ()
  else do
    let c ← sourceAt s.ptr
    set (moved s c count)

/-- `look`. -/
def look : LexM Char := do
  let s ← get
  if s.len = 0 then pure '\x00' else sourceAt s.ptr

/-- `lookn`. -/
def lookn (chars : Nat) : LexM Char := do
  let s ← get
  if s.len < chars then pure '\x00' else sourceAt (s.ptr + chars - 1)

/-- Drop the rest of the text. -/
def dropRest : LexM Unit :=
  modify fun s => { s with ptr := s.ptr + s.len, len := 0 }

/-- `literal_doesnt_terminate`. -/
def literalDoesntTerminate : LexM Token := do
  lexError "Literal doesn't terminate"
  dropRest
  makeToken .tkLexError

/-! ### Comments -/

/-- The loop of `nested_comment`. -/
def nestedCommentLoop : Nat → Nat → LexM (Option Token)
  | _, 0 => do
      modify fun s => { s with newline := false }
      pure none
  | 0, _ + 1 => throw .endless
  | n + 1, depth + 1 => do
      let s ← get
      if s.len ≤ 1 then do
        lexError "Nested comment doesn't terminate"
        dropRest
        let t ← makeToken .tkLexError
        pure (some t)
      else do
        let c ← look
        let d ← lookn 2
        if c = '*' ∧ d = '/' then do
          consumeChars 2
          nestedCommentLoop n depth
        else if c = '/' ∧ d = '*' then do
          consumeChars 2
          nestedCommentLoop n (depth + 2)
        else do
          consumeChars 1
          nestedCommentLoop n (depth + 1)

/-- `nested_comment`. -/
def nestedComment : LexM (Option Token) := do
  consumeChars 2
  let s ← get
  nestedCommentLoop (s.len + 1) 1

/-- The loop of `line_comment`. -/
def lineCommentLoop : Nat → LexM Unit
  | 0 => throw .endless
  | n + 1 => do
      let eof ← isEof
      let c ← look
      if eof = false ∧ c ≠ '\n' then do
        consumeChars 1
        lineCommentLoop n
      else pure ()

/-- `line_comment`. -/
def lineComment : LexM (Option Token) := do
  consumeChars 2
  let s ← get
  lineCommentLoop (s.len + 1)
  pure none

/-- `slash`. -/
def slash : LexM (Option Token) := do
  let c ← lookn 2
  if c = '*' then nestedComment
  else if c = '/' then lineComment
  else if c = '~' then do
    consumeChars 2
    let t ← makeToken .tkDivideTilde
    pure (some t)
  else do
    consumeChars 1
    let t ← makeToken .tkDivide
    pure (some t)

/-! ### Strings and characters -/

/-- The counters of the whitespace loop of `normalise_string`. -/
structure WsState where
  ws : Nat
  wsThisLine : Nat
  inLeadingWs : Bool
  hasNonWs : Bool

/-- One round of the whitespace loop. -/
def wsStep (st : WsState) (c : Char) : WsState :=
  let st :=
    if st.inLeadingWs then
      if c = ' ' ∨ c = '\t' then { st with wsThisLine := st.wsThisLine + 1 }
      else
        let hasNonWs := st.hasNonWs || !isSpace c
        { st with
          hasNonWs := hasNonWs
          ws := if hasNonWs ∧ st.wsThisLine < st.ws then st.wsThisLine else st.ws
          inLeadingWs := false }
    else st
  if c = '\n' then { st with wsThisLine := 0, hasNonWs := false, inLeadingWs := true } else st

/-- The leading whitespace that all lines of the buffer share. -/
def leadingWs (buf : List Char) : Nat :=
  (buf.foldl wsStep ⟨buf.length, 0, true, false⟩).ws

/-- Trim `ws` characters of each line, the newline counted as part of its line; an empty line
stays.  The first argument bounds the number of lines. -/
def trimLines (ws : Nat) : Nat → List Char → List Char
  | 0, _ => []
  | n + 1, buf =>
    let body := buf.takeWhile (· ≠ '\n')
    match buf.dropWhile (· ≠ '\n') with
    | [] => body.drop ws
    | _ :: rest =>
      if body = [] then '\n' :: trimLines ws n rest
      else (body ++ ['\n']).drop ws ++ trimLines ws n rest

/-- The length of the whitespace after the last newline, if there is nothing else; the buffer
from its end, whose first character is not looked at. -/
def trailingWs : List Char → Nat → Nat
  | c :: d :: before, trim =>
    if c = '\n' then trim
    else if isSpace c then trailingWs (d :: before) (trim + 1)
    else 0
  | _, _ => 0

/-- `normalise_string` on the buffer. -/
def normaliseString (buf : List Char) : List Char :=
  if '\n' ∈ buf then
    let buf :=
      match buf with
      | '\r' :: '\n' :: rest => rest
      | '\n' :: rest => rest
      | buf => buf
    let ws := leadingWs buf
    let buf := if 0 < ws then trimLines ws (buf.length + 1) buf else buf
    buf.take (buf.length - trailingWs buf.reverse 0)
  else buf

/-- The loop over the extra quotes that end a triple quoted string. -/
def extraQuotes : Nat → LexM Unit
  | 0 => throw .endless
  | n + 1 => do
      let c ← look
      if c = '\x22' then do
        appendToToken '\x22'
        consumeChars 1
        extraQuotes n
      else pure ()

/-- The loop of `triple_string`. -/
def tripleStringLoop (startLine : Nat) : Nat → Bool → LexM Token
  | 0, _ => throw .endless
  | n + 1, nonSpaceOnFirstLine => do
      let eof ← isEof
      if eof then literalDoesntTerminate
      else do
        let c ← look
        let d ← lookn 2
        let e ← lookn 3
        if c = '\x22' ∧ d = '\x22' ∧ e = '\x22' then do
          consumeChars 3
          let s ← get
          extraQuotes (s.len + 1)
          let s ← get
          if startLine < s.line ∧ nonSpaceOnFirstLine then do
            lexError
              "multi-line triple-quoted string must be started below the opening triple-quote"
            makeToken .tkLexError
          else do
            modify fun s => { s with buffer := normaliseString s.buffer }
            makeTokenWithText .tkString
        else do
          let s ← get
          let nonSpace := nonSpaceOnFirstLine || (s.line == startLine && !isSpace c)
          consumeChars 1
          appendToToken c
          tripleStringLoop startLine n nonSpace

/-- `triple_string`. -/
def tripleString : LexM Token := do
  consumeChars 3
  let s ← get
  tripleStringLoop s.line (s.len + 1) false

/-- The value of a hexadecimal digit. -/
def hexDigit (c : Char) : Option Nat :=
  if '0' ≤ c ∧ c ≤ '9' then some (c.toNat - '0'.toNat)
  else if 'a' ≤ c ∧ c ≤ 'f' then some (c.toNat + 10 - 'a'.toNat)
  else if 'A' ≤ c ∧ c ≤ 'F' then some (c.toNat + 10 - 'A'.toNat)
  else none

/-- `read_hex_escape`: the value, or on an error the number of characters processed. -/
def readHexEscape : Nat → Nat → Nat → LexM (Except Nat Nat)
  | 0, _, value => pure (.ok value)
  | length + 1, textLen, value => do
      let c ← look
      match hexDigit c with
      | none => pure (.error textLen)
      | some digit => do
          consumeChars 1
          readHexEscape length (textLen + 1) (value * 16 + digit)

/-- The switch of `escape`: a value, a number of hexadecimal digits to read, or neither. -/
def escapeSwitch (c : Char) (unicodeAllowed isString : Bool) : Option Nat × Nat :=
  match c with
  | 'a' => (some 0x07, 0)
  | 'b' => (some 0x08, 0)
  | 'e' => (some 0x1B, 0)
  | 'f' => (some 0x0C, 0)
  | 'n' => (some 0x0A, 0)
  | 'r' => (some 0x0D, 0)
  | 't' => (some 0x09, 0)
  | 'v' => (some 0x0B, 0)
  | '\\' => (some 0x5C, 0)
  | '0' => (some 0x00, 0)
  | 'x' => (none, 2)
  | '\x22' => (if isString then some 0x22 else none, 0)
  | '\x27' => (if isString then none else some 0x27, 0)
  | 'u' => (none, if unicodeAllowed then 4 else 0)
  | 'U' => (none, if unicodeAllowed then 6 else 0)
  | _ => (none, 0)

/-- `escape`: the value, or `none` after an error. -/
def escape (unicodeAllowed isString : Bool) : LexM (Option Nat) := do
  let s ← get
  let start := s.source.drop s.ptr
  let c ← lookn 2
  consumeChars 2
  let (value, hexDigits) := escapeSwitch c unicodeAllowed isString
  if 0 < hexDigits then do
    let r ← readHexEscape hexDigits 2 0
    match r with
    | .error textLen => do
        lexErrorAt s.line s.pos ("Invalid escape sequence \"" ++ String.ofList (start.take textLen)
          ++ "\", " ++ toString hexDigits ++ " hex digits required")
        pure none
    | .ok value =>
      if 0x10FFFF < value then do
        lexErrorAt s.line s.pos ("Escape sequence \"" ++ String.ofList start
          ++ "\" exceeds unicode range (0x10FFFF)")
        pure none
      else pure (some value)
  else
    match value with
    | some value => pure (some value)
    | none => do
        lexErrorAt s.line s.pos
          ("Invalid escape sequence \"" ++ String.ofList (start.take 2) ++ "\"")
        pure none

/-- `append_utf8`. -/
def appendUtf8 (value : Nat) : LexM Unit :=
  if value ≤ 0x7F then appendToToken (Char.ofNat value)
  else if value ≤ 0x7FF then do
    appendToToken (Char.ofNat (0xC0 + value / 64))
    appendToToken (Char.ofNat (0x80 + value % 64))
  else if value ≤ 0xFFFF then do
    appendToToken (Char.ofNat (0xE0 + value / 4096))
    appendToToken (Char.ofNat (0x80 + value / 64 % 64))
    appendToToken (Char.ofNat (0x80 + value % 64))
  else do
    appendToToken (Char.ofNat (0xF0 + value / 262144))
    appendToToken (Char.ofNat (0x80 + value / 4096 % 64))
    appendToToken (Char.ofNat (0x80 + value / 64 % 64))
    appendToToken (Char.ofNat (0x80 + value % 64))

/-- The loop of `string`. -/
def stringLoop : Nat → LexM Token
  | 0 => throw .endless
  | n + 1 => do
      let eof ← isEof
      if eof then literalDoesntTerminate
      else do
        let c ← look
        if c = '\x22' then do
          consumeChars 1
          makeTokenWithText .tkString
        else if c = '\\' then do
          let value ← escape true true
          match value with
          | some value => do
              appendUtf8 value
              stringLoop n
          | none => stringLoop n
        else do
          appendToToken c
          consumeChars 1
          stringLoop n

/-- `string`. -/
def string : LexM Token := do
  let d ← lookn 2
  let e ← lookn 3
  if d = '\x22' ∧ e = '\x22' then tripleString
  else do
    consumeChars 1
    let s ← get
    stringLoop (s.len + 1)

/-- The loop of `character`. -/
def characterLoop : Nat → Nat → Lexint → LexM Token
  | 0, _, _ => throw .endless
  | n + 1, charsConsumed, value => do
      let eof ← isEof
      if eof then literalDoesntTerminate
      else do
        let c ← look
        if c = '\x27' then do
          consumeChars 1
          if charsConsumed = 0 then do
            lexError "Empty character literal"
            makeToken .tkLexError
          else makeTokenSet .tkInt (.integer value)
        else if c = '\\' then do
          let e ← escape false false
          match e with
          | some e => characterLoop n (charsConsumed + 1) (value.char (UInt64.ofNat e))
          | none => characterLoop n (charsConsumed + 1) value
        else do
          consumeChars 1
          characterLoop n (charsConsumed + 1) (value.char (UInt64.ofNat c.toNat))

/-- `character`. -/
def character : LexM Token := do
  consumeChars 1
  let s ← get
  characterLoop (s.len + 1) 0 .zero

/-! ### Numbers -/

/-- The value of a digit in some base. -/
def anyDigit (c : Char) : Option Nat :=
  if '0' ≤ c ∧ c ≤ '9' then some (c.toNat - '0'.toNat)
  else if 'a' ≤ c ∧ c ≤ 'z' then some (c.toNat - 'a'.toNat + 10)
  else if 'A' ≤ c ∧ c ≤ 'Z' then some (c.toNat - 'A'.toNat + 10)
  else none

/-- What `lex_integer` returns: the value and the number of digits, or `none` after an error. -/
abbrev IntegerResult := Option (Lexint × Nat)

/-- The end of `lex_integer`. -/
def lexIntegerEnd (context : String) (value : Lexint) (digitCount : Nat)
    (previousUnderscore : Bool) : LexM IntegerResult :=
  if digitCount = 0 then do
    lexError ("No digits in " ++ context)
    pure none
  else if previousUnderscore then do
    lexError ("Numeric literal cannot end with underscore in " ++ context)
    pure none
  else pure (some (value, digitCount))

/-- The loop of `lex_integer`; `digit_count` has 32 bits. -/
def lexIntegerLoop (base : Nat) (endOnE : Bool) (context : String) :
    Nat → Lexint → Nat → Bool → LexM IntegerResult
  | 0, _, _, _ => throw .endless
  | n + 1, value, digitCount, previousUnderscore => do
      let eof ← isEof
      if eof then lexIntegerEnd context value digitCount previousUnderscore
      else do
        let c ← look
        if c = '_' then
          if previousUnderscore then do
            lexError ("Invalid duplicate underscore in " ++ context)
            pure none
          else do
            consumeChars 1
            lexIntegerLoop base endOnE context n value digitCount true
        else if endOnE = true ∧ (c = 'e' ∨ c = 'E') then
          lexIntegerEnd context value digitCount previousUnderscore
        else
          match anyDigit c with
          | none => lexIntegerEnd context value digitCount previousUnderscore
          | some digit =>
            if base ≤ digit then do
              lexError ("Invalid character in " ++ context ++ ": " ++ String.singleton c)
              pure none
            else
              match value.accum (UInt64.ofNat digit) (UInt64.ofNat base) with
              | none => do
                  lexError "overflow in numeric literal"
                  pure none
              | some value => do
                  consumeChars 1
                  lexIntegerLoop base endOnE context n value ((digitCount + 1) % 2 ^ 32) false

/-- `lex_integer`. -/
def lexInteger (base : Nat) (value : Lexint) (endOnE : Bool) (context : String) :
    LexM IntegerResult := do
  let s ← get
  lexIntegerLoop base endOnE context (s.len + 1) value 0 false

/-- The optional sign of an exponent. -/
def consumeSign (sign : Char) : LexM Unit :=
  if sign = '+' ∨ sign = '-' then consumeChars 1 else pure ()

/-- The exponent of `real`, and the token. -/
def realExponent (significand : Lexint) (mantissaDigits : Nat) : LexM Token := do
  let c ← look
  if c = 'e' ∨ c = 'E' then do
    consumeChars 1
    let sign ← look
    consumeSign sign
    let e ← lexInteger 10 .zero false "real number exponent"
    match e with
    | none => makeToken .tkLexError
    | some (e, _) => makeTokenSet .tkFloat (.real significand e (sign = '-') mantissaDigits)
  else makeTokenSet .tkFloat (.real significand .zero false mantissaDigits)

/-- `real`: the `.` or the `e` has been seen. -/
def real (integralValue : Lexint) : LexM Token := do
  let c ← look
  if c = '.' then do
    let d ← lookn 2
    if d < '0' ∨ '9' < d then makeTokenSet .tkInt (.integer integralValue)
    else do
      consumeChars 1
      let r ← lexInteger 10 integralValue true "real number mantissa"
      match r with
      | none => makeToken .tkLexError
      | some (significand, mantissaDigits) => realExponent significand mantissaDigits
  else realExponent integralValue 0

/-- `nondecimal_number`. -/
def nondecimalNumber (base : Nat) (context : String) : LexM Token := do
  let r ← lexInteger base .zero false context
  match r with
  | none => makeToken .tkLexError
  | some (value, _) => makeTokenSet .tkInt (.integer value)

/-- The decimal part of `number`. -/
def decimalNumber : LexM Token := do
  let r ← lexInteger 10 .zero true "decimal number"
  match r with
  | none => makeToken .tkLexError
  | some (value, _) => do
      let c ← look
      if c = '.' ∨ c = 'e' ∨ c = 'E' then real value
      else makeTokenSet .tkInt (.integer value)

/-- `number`. -/
def number : LexM Token := do
  let c ← look
  let d ← lookn 2
  if c = '0' ∧ (d = 'x' ∨ d = 'X') then do
    consumeChars 2
    nondecimalNumber 16 "hexadecimal number"
  else if c = '0' ∧ (d = 'b' ∨ d = 'B') then do
    consumeChars 2
    nondecimalNumber 2 "binary number"
  else decimalNumber

/-! ### Keywords, identifiers and symbols -/

/-- A character of an identifier. -/
def isIdChar (c : Char) : Bool := c = '_' || c = '\x27' || c.isAlphanum

/-- The loop of `read_id`. -/
def readIdLoop : Nat → Nat → LexM Nat
  | 0, _ => throw .endless
  | n + 1, len => do
      let c ← lookn (len + 1)
      if isIdChar c then do
        appendToToken c
        readIdLoop n (len + 1)
      else pure len

/-- `read_id`. -/
def readId : LexM Nat := do
  let s ← get
  readIdLoop (s.len + 1) 0

/-- `keyword`. -/
def keyword (allowIdentifiers : Bool) : LexM (Option Token) := do
  let len ← readId
  let s ← get
  match keywords.find? (fun p => p.1 == s.buffer) with
  | some p => do
      consumeChars len
      let t ← makeToken p.2
      pure (some t)
  | none =>
    if allowIdentifiers = true ∧ 0 < len then do
      consumeChars len
      let t ← makeTokenWithText .tkId
      pure (some t)
    else pure none

/-- `hash`. -/
def hash : LexM Token := do
  let c ← look
  appendToToken c
  consumeChars 1
  let t ← keyword false
  match t with
  | some t => pure t
  | none => makeToken .tkConstant

/-- The error of `dollar`. -/
def dollarError : LexM Token := do
  lexError "Unrecognized character: $"
  makeToken .tkLexError

/-- `dollar`. -/
def dollar : LexM Token := do
  let c ← look
  appendToToken c
  consumeChars 1
  let s ← get
  if s.allowTestSymbols then do
    let t ← keyword true
    match t with
    | some t => pure t
    | none => dollarError
  else dollarError

/-- `newline_symbols`. -/
def newlineSymbols (raw : TokenId) (newline : Bool) : TokenId :=
  if newline then
    match raw with
    | .tkLparen => .tkLparenNew
    | .tkLsquare => .tkLsquareNew
    | .tkMinus => .tkMinusNew
    | .tkMinusTilde => .tkMinusTildeNew
    | raw => raw
  else raw

/-- `symbol`. -/
def symbol : LexM Token := do
  let c ← lookn 1
  let d ← lookn 2
  let e ← lookn 3
  match symbols.find? (fun p => p.1.isPrefixOf [c, d, e]) with
  | some p => do
      consumeChars p.1.length
      let s ← get
      makeToken (newlineSymbols p.2 s.newline)
  | none => do
      lexError ("Unrecognized character: " ++ String.singleton c)
      consumeChars 1
      makeToken .tkLexError

/-! ### Tokens -/

/-- `lexer_open`. -/
def lexerOpen (source : List Char) (allowTestSymbols : Bool) : Lexer where
  source := source
  allowTestSymbols := allowTestSymbols
  ptr := 0
  len := source.length
  line := 1
  pos := 1
  newline := true
  tokenNewline := true
  tokenLine := 0
  tokenPos := 0
  buffer := []
  errors := []

/-- A token, as the result of a round. -/
def found (x : LexM Token) : LexM (Option Token) := do
  let t ← x
  pure (some t)

/-- The default case of `lexer_next`. -/
def scanDefault (c : Char) : LexM (Option Token) :=
  if c.isDigit then found number
  else if c.isAlpha ∨ c = '_' then do
    let t ← keyword true
    match t with
    | some t => pure (some t)
    | none => throw .assertion
  else found symbol

/-- One round of the loop of `lexer_next`, not at the end of the text. -/
def scan : LexM (Option Token) := do
  modify fun s => { s with tokenLine := s.line, tokenPos := s.pos, buffer := [] }
  let c ← look
  match c with
  | '\n' => do
      modify fun s => { s with newline := true, tokenNewline := true }
      consumeChars 1
      pure none
  | '\r' | '\t' | ' ' => do
      consumeChars 1
      pure none
  | '/' => slash
  | '\x22' => found string
  | '\x27' => found character
  | '#' => found hash
  | '$' => found dollar
  | c => scanDefault c

/-- The end of the text, as a token. -/
def scanEof : LexM Token := do
  modify fun s => { s with tokenLine := s.line, tokenPos := s.pos, buffer := [] }
  makeToken .tkEof

/-- The end of `lexer_next`. -/
def clearNewline (s : Lexer) : Lexer := { s with newline := false, tokenNewline := false }

/-- The loop of `lexer_next`. -/
def lexerNextLoop : Nat → LexM Token
  | 0 => throw .endless
  | n + 1 => do
      let eof ← isEof
      if eof then scanEof
      else do
        let t ← scan
        match t with
        | some t => pure t
        | none => lexerNextLoop n

/-- `lexer_next`. -/
def lexerNext : LexM Token := do
  let s ← get
  let t ← lexerNextLoop (s.len + 1)
  modify clearNewline
  pure t

end SpacePony.Lexing
