import Mathlib.Data.Nat.Bitwise

/-!
# Compiler — token ids

The enumeration of `ast/token.h`, in its order: the position of a constructor is the number
that the compiler computes with (`TokenId.val`).
-/

namespace SpacePony.Syntax

/-- `token_id`. -/
inductive TokenId where
  | tkEof | tkLexError | tkNone
  -- Literals
  | tkTrue | tkFalse | tkString | tkInt | tkFloat | tkId
  -- Symbols
  | tkLbrace | tkRbrace | tkLparen | tkRparen | tkLsquare | tkRsquare | tkBackslash | tkComma
  | tkArrow | tkDblarrow | tkDot | tkTilde | tkChain | tkColon | tkSemi | tkAssign | tkPlus
  | tkPlusTilde | tkMinus | tkMinusTilde | tkMultiply | tkMultiplyTilde | tkDivide
  | tkDivideTilde | tkRem | tkRemTilde | tkMod | tkModTilde | tkAt | tkAtLbrace | tkLshift
  | tkLshiftTilde | tkRshift | tkRshiftTilde | tkLt | tkLtTilde | tkLe | tkLeTilde | tkGe
  | tkGeTilde | tkGt | tkGtTilde | tkEq | tkEqTilde | tkNe | tkNeTilde | tkPipe | tkIsecttype
  | tkEphemeral | tkAliased | tkSubtype | tkQuestion | tkUnaryMinus | tkUnaryMinusTilde
  | tkEllipsis | tkConstant | tkConstantObject | tkConstantArray
  -- Newline symbols, only used by lexer and parser
  | tkLparenNew | tkLsquareNew | tkMinusNew | tkMinusTildeNew
  -- Keywords
  | tkCompileIntrinsic | tkUse | tkType | tkInterface | tkTrait | tkPrimitive | tkStruct
  | tkClass | tkActor | tkObject | tkLambda | tkBarelambda | tkEnum | tkAs | tkIs | tkIsnt
  | tkVar | tkLet | tkEmbed | tkDontcare | tkNew | tkFun | tkBe | tkIso | tkTrn | tkRef | tkVal
  | tkBox | tkTag | tkNhb | tkCapRead | tkCapSend | tkCapShare | tkCapAlias | tkCapAny | tkThis
  | tkReturn | tkBreak | tkContinue | tkConsume | tkRecover | tkComptime | tkIf | tkIfdef
  | tkIftype | tkIftypeSet | tkThen | tkElse | tkElseif | tkEnd | tkWhile | tkDo | tkRepeat
  | tkUntil | tkFor | tkIn | tkMatch | tkWhere | tkTry | tkTryNoCheck | tkWith | tkError
  | tkCompileError | tkAsm | tkNot | tkAnd | tkOr | tkXor | tkDigestof | tkAddress | tkOffsetof
  | tkSizeof | tkAlignof | tkAlignas | tkLocation
  -- Abstract tokens which don't directly appear in the source
  | tkProgram | tkPackage | tkModule | tkMembers | tkFvar | tkFlet | tkFfidecl | tkFficall
  | tkFfiref | tkIfdefand | tkIfdefor | tkIfdefnot | tkIfdefflag | tkProvides | tkUniontype
  | tkTupletype | tkNominal | tkThistype | tkFuntype | tkLambdatype | tkBarelambdatype
  | tkDontcaretype | tkBoolTrue | tkBoolFalse | tkInfertype | tkErrortype | tkLiteral
  | tkLiteralbranch | tkOperatorliteral | tkTypeparams | tkTypeparam | tkParams | tkParam
  | tkTypeargs | tkValueformalparam | tkValueformalarg | tkPositionalargs | tkNamedargs
  | tkNamedarg | tkUpdatearg | tkLambdacaptures | tkLambdacapture | tkSeq | tkQualify | tkCall
  | tkTuple | tkArray | tkCases | tkCase | tkMatchCapture | tkMatchDontcare | tkReference
  | tkPackageref | tkTyperef | tkTypeparamref | tkValueformalparamref | tkTypealiasref | tkNewref
  | tkNewberef | tkBeref | tkFunref | tkFvarref | tkFletref | tkEmbedref | tkTupleelemref
  | tkVarref | tkLetref | tkParamref | tkDontcareref | tkNewapp | tkBeapp | tkFunapp | tkBechain
  | tkFunchain | tkEntityTypeClass | tkEntityTypeStruct | tkEntityTypePrimitive
  | tkEntityTypeActor | tkAnnotation | tkDisposingBlock
  -- Pseudo tokens that never actually exist
  | tkNewline | tkFlatten
  -- Token types for testing
  | tkTestNoSeq | tkTestSeqScope | tkTestTryNoCheck | tkTestAliased | tkTestUpdatearg
  | tkTestExtra
  deriving DecidableEq

namespace TokenId

/-- The number of a token id. -/
def val (id : TokenId) : UInt64 := UInt64.ofNat id.ctorIdx

theorem ctorIdx_lt (id : TokenId) : id.ctorIdx < 256 := by
  cases id <;> decide

theorem val_lt (id : TokenId) : id.val.toNat < 256 := by
  have h := id.ctorIdx_lt
  rw [val, UInt64.toNat_ofNat', Nat.mod_eq_of_lt (by omega)]
  exact h

end TokenId

end SpacePony.Syntax
