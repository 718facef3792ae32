import SpacePony.Compiler.Ctfe.Constant
import SpacePony.Support.Memo

/-!
# Compiler — the cache of compile-time evaluation

`get_reified_method`, `get_builtin_type` and `cache_and_get_built_type` of `ctfe/ctfe_runner.cc`
keep their trees in one table, `m_cached_ast`, under the exclusive or of hashes.  Two requests have
one key exactly when their odd literals cancel against their token ids (`Request.key_eq_iff`), as
the methods of `Swap[U8, U16]` and `Swap[U16, U8]` do (`cache_confuses_swapped`).

So the answers of the cache are those of fresh lookups exactly when no request follows one that it
cancels with and that has another result (`cache_transparent_iff`).
-/

namespace SpacePony.Ctfe

open Syntax XorFold

/-- A call of one of the functions that use `m_cached_ast`. -/
inductive Request where
  /-- `get_reified_method`. -/
  | method (recvType : Ast) (typeargs : Option Ast) (name : CStr)
  /-- `get_builtin_type`. -/
  | builtin (name : CStr)
  /-- `cache_and_get_built_type`. -/
  | built (type : Ast)

/-- What the functions find where the cache has nothing: `lookup_try` and the reification of the
method, which may fail, and `type_builtin`. -/
structure Compiler where
  reifiedMethod : Ast → Option Ast → CStr → Option Ast
  typeBuiltin : CStr → Ast

/-- The result of a request without the cache. -/
def Compiler.fresh (c : Compiler) : Request → Option Ast
  | .method recvType typeargs name => c.reifiedMethod recvType typeargs name
  | .builtin name => some (c.typeBuiltin name)
  | .built type => some type

section
variable (undefined : Double → UInt64)

/-- The key of a request in `m_cached_ast`. -/
def Request.key : Request → UInt64
  | .method recvType none name => hashStr name ^^^ astHash undefined recvType
  | .method recvType (some typeargs) name =>
    hashStr name ^^^ astHash undefined recvType ^^^ astHash undefined typeargs
  | .builtin name => hashStr name
  | .built type => astHash undefined type

/-- The answers to a sequence of requests. -/
def Compiler.cached (c : Compiler) (rs : List Request) : List (Option Ast) :=
  Memo.run (Request.key undefined) c.fresh rs fun _ => none

/-! ### What a key keeps -/

/-- The literals that go into a key. -/
def Request.literals : Request → List Literal
  | .method recvType none name => .text name :: Syntax.literals undefined recvType
  | .method recvType (some typeargs) name =>
    .text name :: (Syntax.literals undefined recvType ++ Syntax.literals undefined typeargs)
  | .builtin name => [.text name]
  | .built type => Syntax.literals undefined type

/-- The token ids that go into a key. -/
def Request.ids : Request → List TokenId
  | .method recvType none _ => Syntax.ids recvType
  | .method recvType (some typeargs) _ => Syntax.ids recvType ++ Syntax.ids typeargs
  | .builtin _ => []
  | .built type => Syntax.ids type

theorem Request.key_eq_fold (r : Request) : r.key undefined =
    xorList Literal.hash (r.literals undefined) ^^^ xorList TokenId.val r.ids := by
  match r with
  | .method recvType none name =>
    simp only [key, literals, ids, xorList, Literal.hash, astHash_eq_fold]
    ac_rfl
  | .method recvType (some typeargs) name =>
    simp only [key, literals, ids, xorList, xorList_append, Literal.hash, astHash_eq_fold]
    ac_rfl
  | .builtin name => simp [key, literals, ids, xorList, Literal.hash]
  | .built type => exact astHash_eq_fold undefined type

/-- The words of the literals that are odd in exactly one of the two requests cancel against the
token ids. -/
def Request.Cancel (r r' : Request) : Prop :=
  xorSet Literal.hash (symmDiff (oddSet (r.literals undefined)) (oddSet (r'.literals undefined))) =
    xorList TokenId.val r.ids ^^^ xorList TokenId.val r'.ids

/-- Two requests share a key of the cache exactly when their trees' words cancel. -/
theorem Request.key_eq_iff (r r' : Request) :
    r.key undefined = r'.key undefined ↔ r.Cancel undefined r' := by
  rw [key_eq_fold, key_eq_fold, xor_eq_xor_iff, Cancel, xorSet_symmDiff,
    xorList_eq_xorSet_oddSet, xorList_eq_xorSet_oddSet]

/-- **When the cache is transparent.**  For every sequence of requests, the answers are those of fresh
lookups if and only if no request cancels with an earlier one that has another result. -/
theorem cache_transparent_iff (c : Compiler) (rs : List Request) :
    c.cached undefined rs = rs.map c.fresh ↔
      rs.Pairwise fun r r' => r.Cancel undefined r' → c.fresh r = none ∨ c.fresh r' = c.fresh r := by
  rw [Compiler.cached, Memo.run_eq_iff]
  have hapart : Memo.Apart (Request.key undefined) c.fresh = fun r r' =>
      r.Cancel undefined r' → c.fresh r = none ∨ c.fresh r' = c.fresh r := by
    funext r r'
    rw [Memo.Apart, Request.key_eq_iff]
  rw [hapart]

end

/-! ### `Swap[U8, U16]` and `Swap[U16, U8]` -/

/-- A nominal type with type arguments. -/
def genericType (package : Nat) (name : CStr) (typeargs : List Ast) : Ast :=
  .node .tkNominal .blank (some (.definition package)) none
    [.node .tkId (.string ('$' :: decimal package)) none none [],
      .node .tkId (.string name) none none [], (Ast.blank .tkTypeargs).append typeargs,
      .blank .tkVal, .blank .tkNone]

/-- `Swap[a, b]`. -/
def swapType (a b : Ast) : Ast := genericType 1 ['S', 'w', 'a', 'p'] [a, b]

/-- The first type argument of a nominal type. -/
def firstTypearg : Ast → Option Ast
  | .node _ _ _ _ (_ :: _ :: .node _ _ _ _ (a :: _) :: _) => some a
  | _ => none

/-- A compilation of `class Swap[A, B]` with `fun first(): A`: the reified method has the first type
argument of the receiver as its result type. -/
def swapCompiler : Compiler where
  reifiedMethod := fun recvType _ name =>
    if name = ['f', 'i', 'r', 's', 't'] then
      (firstTypearg recvType).map fun a => (Ast.blank .tkFun).append
        [.blank .tkBox, .node .tkId (.string name) none none [], .blank .tkNone, .blank .tkNone, a]
    else none
  typeBuiltin := nominal 0

/-- `first` of `Swap[U8, U16]`, then of `Swap[U16, U8]`. -/
def swapRequests : List Request :=
  [.method (swapType u8Type (nominal 0 ['U', '1', '6'])) none ['f', 'i', 'r', 's', 't'],
    .method (swapType (nominal 0 ['U', '1', '6']) u8Type) none ['f', 'i', 'r', 's', 't']]

/-- **The two methods are confused**: the second call returns the body of the first. -/
theorem cache_confuses_swapped :
    swapCompiler.cached (fun _ => 0) swapRequests ≠ swapRequests.map swapCompiler.fresh := by
  rw [Ne, Compiler.cached, Memo.run_eq_iff, swapRequests, List.pairwise_pair]
  intro h
  rcases h (by decide) with h | h
  · cases h
  · simp [Compiler.fresh, swapCompiler, firstTypearg, swapType, genericType, u8Type, nominal,
      Ast.append, Ast.blank] at h

end SpacePony.Ctfe
