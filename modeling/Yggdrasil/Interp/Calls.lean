import Yggdrasil.Interp.Body

/-!
# Calls are made by the loop

An instruction hands calls on to the loop instead of making them, so the loop body
does not depend on the callbacks for calls.
-/

namespace Yggdrasil

variable {σ : Type}

/-- An interface with other callbacks for calls. -/
def SystemApi.withCalls (api : SystemApi σ)
    (callExt : UInt32 → UInt32 → List Term → Attempt σ Term)
    (tailCall : UInt32 → UInt32 → List Term → Effect σ Unit)
    (tailCallLocal : UInt32 → List Term → Effect σ Unit) : SystemApi σ :=
  { api with callExt := callExt, tailCall := tailCall, tailCallLocal := tailCallLocal }

section

variable (api : SystemApi σ) (limit : ℕ)
  (ext : UInt32 → UInt32 → List Term → Attempt σ Term)
  (tail : UInt32 → UInt32 → List Term → Effect σ Unit)
  (loc : UInt32 → List Term → Effect σ Unit)

namespace Sys

private theorem allocTerm_withCalls (f : HeapM Term) (n : ℕ) :
    allocTerm (api.withCalls ext tail loc) f n = allocTerm api f n := by
  induction n with
  | zero => rfl
  | succ n ih =>
    unfold allocTerm
    rw [ih]
    rfl

private theorem mapNewLoop_withCalls (n : ℕ) (pairs : List (Term × Term)) :
    mapNewLoop (api.withCalls ext tail loc) n pairs = mapNewLoop api n pairs := by
  induction n generalizing pairs with
  | zero => rfl
  | succ n ih =>
    unfold mapNewLoop
    simp only [ih]
    rfl

private theorem mapPutLoop_withCalls (m k v : Term) (n : ℕ) :
    mapPutLoop (api.withCalls ext tail loc) m k v n = mapPutLoop api m k v n := by
  induction n with
  | zero => rfl
  | succ n ih =>
    unfold mapPutLoop
    rw [ih]
    rfl

private theorem listBytes_withCalls (n : ℕ) (t : Term) :
    listBytes (api.withCalls ext tail loc) n t = listBytes api n t := by
  induction n generalizing t with
  | zero => rfl
  | succ n ih =>
    unfold listBytes
    simp only [ih]
    rfl

private theorem listElems_withCalls (n : ℕ) (t : Term) :
    listElems (api.withCalls ext tail loc) n t = listElems api n t := by
  induction n generalizing t with
  | zero => rfl
  | succ n ih =>
    unfold listElems
    simp only [ih]
    rfl

end Sys

namespace Exec

private theorem alloc_withCalls (rd : UInt8) (f : HeapM Term) :
    alloc (api.withCalls ext tail loc) limit rd f = alloc api limit rd f := by
  unfold alloc
  rw [Sys.allocTerm_withCalls]

private theorem dispatch_withCalls (op : Op) :
    dispatch (api.withCalls ext tail loc) limit op = dispatch api limit op := by
  cases op
  case reg1 o => cases o <;> rfl
  case reg2 o =>
    cases o <;> simp only [dispatch, reg2, alloc_withCalls, Sys.listBytes_withCalls] <;> rfl
  case reg3 o =>
    cases o <;> simp only [dispatch, reg3, alloc_withCalls, Sys.listElems_withCalls] <;> rfl
  case reg4 o =>
    cases o <;> simp only [dispatch, reg4, alloc_withCalls, Sys.mapPutLoop_withCalls] <;> rfl
  case makeTuple => simp only [dispatch, makeTuple, alloc_withCalls]
  case binNew => simp only [dispatch, alloc_withCalls]
  case mapNew => simp only [dispatch, mapNew, Sys.mapNewLoop_withCalls]
  all_goals rfl

/-- The loop body does not use the callbacks for calls. -/
theorem body_withCalls : body (api.withCalls ext tail loc) limit = body api limit := by
  simp only [body, dispatch_withCalls]

end Exec

end

end Yggdrasil
