import Yggdrasil.Jit.Runtime
import Yggdrasil.Term.FlatMaps

/-!
# Retrying to build a map

When the heap is full, the interpreter grows it and tries again with the pairs as the failed
attempt has left them, sorted and partly compacted. The runtime of compiled code makes the
pairs anew. Both end as the first attempt would have in the heap of the last one.
-/

namespace Yggdrasil

section

variable {σ : Type} (api : SystemApi σ) (pairs : List (Term × Term))

/-- From state `s`, `k` attempts fail because the heap is full, each is followed by a
successful growth, and the next attempt is made in state `s'`. -/
inductive Grown : ℕ → σ → σ → Prop
  /-- No attempt has failed. -/
  | first (s : σ) : Grown 0 s s
  /-- One attempt fails and the heap grows. -/
  | again {k : ℕ} {s s₁ s' : σ} {e : HeapFull} {st : Store} :
    (Heap.mapFromPairs pairs (api.store s)).1 = .error (.heap e) st →
    Sys.effect api.heapGrow (api.setStore st s) = .ok true s₁ → Grown k s₁ s' →
    Grown (k + 1) s s'

variable {api pairs} {n k : ℕ} {s s' : σ} {t : Term} {st : Store}

/-- Retrying with pairs that stand for the same map as the given ones. -/
private theorem mapNewLoop_congr {slice : List (Term × Term)}
    (h : ∀ st, (Heap.mapFromPairs slice st).1 = (Heap.mapFromPairs pairs st).1) :
    Sys.mapNewLoop api n slice = Rt.mapNew api pairs n := by
  induction n generalizing slice with
  | zero => rfl
  | succ n ih =>
    funext s
    have hleft := ih fun st => (Heap.mapFromPairs_leftover slice (api.store s) st).trans (h st)
    have hfirst := h (api.store s)
    rcases hrun : Heap.mapFromPairs slice (api.store s) with ⟨r, rest⟩
    rw [hrun] at hleft hfirst
    simp only [Sys.mapNewLoop, Rt.mapNew, hrun, ← hfirst]
    cases r with
    | ok t st => rfl
    | error e st =>
      cases e with
      | nonImmediateKey => rfl
      | heap e => simp only [hleft]

private theorem mapNew_ok (hrun : (Heap.mapFromPairs pairs (api.store s)).1 = .ok t st) :
    Rt.mapNew api pairs (n + 1) s = .ok t (api.setStore st s) := by
  simp only [Rt.mapNew, hrun]

private theorem mapNew_boxed
    (hrun : (Heap.mapFromPairs pairs (api.store s)).1 = .error .nonImmediateKey st) :
    Rt.mapNew api pairs (n + 1) s = .error (.trap .badarg) (api.setStore st s) := by
  simp only [Rt.mapNew, hrun]

private theorem mapNew_full {e : HeapFull}
    (hrun : (Heap.mapFromPairs pairs (api.store s)).1 = .error (.heap e) st) :
    Rt.mapNew api pairs (n + 1) s =
      EStateM.bind (Sys.effect api.heapGrow) (fun grown =>
        if grown then Rt.mapNew api pairs n else throw (.trap .heapFull)) (api.setStore st s) := by
  simp only [Rt.mapNew, hrun]
  rfl

private theorem mapNew_again {e : HeapFull} {s₁ : σ}
    (hrun : (Heap.mapFromPairs pairs (api.store s)).1 = .error (.heap e) st)
    (hgrow : Sys.effect api.heapGrow (api.setStore st s) = .ok true s₁) :
    Rt.mapNew api pairs (n + 1) s = Rt.mapNew api pairs n s₁ := by
  rw [mapNew_full hrun, EStateM.bind, hgrow]
  rfl

/-- After growing as often as necessary, the map is built as in a first attempt. -/
private theorem Grown.mapNew (h : Grown api pairs k s s')
    (hrun : (Heap.mapFromPairs pairs (api.store s')).1 = .ok t st) (hn : k < n) :
    Rt.mapNew api pairs n s = .ok t (api.setStore st s') := by
  induction h generalizing n with
  | first s =>
    obtain ⟨n, rfl⟩ : ∃ m, n = m + 1 := ⟨n - 1, by omega⟩
    exact mapNew_ok hrun
  | again hfull hgrow _ ih =>
    obtain ⟨n, rfl⟩ : ∃ m, n = m + 1 := ⟨n - 1, by omega⟩
    rw [mapNew_again hfull hgrow]
    exact ih hrun (by omega)

/-- A map that was built was built so. -/
private theorem grown_of_mapNew (h : Rt.mapNew api pairs n s = .ok t s') :
    ∃ k s₁ st, k < n ∧ Grown api pairs k s s₁ ∧
      (Heap.mapFromPairs pairs (api.store s₁)).1 = .ok t st ∧ s' = api.setStore st s₁ := by
  induction n generalizing s with
  | zero => cases h
  | succ n ih =>
    cases hrun : (Heap.mapFromPairs pairs (api.store s)).1 with
    | ok t₁ st₁ =>
      rw [mapNew_ok hrun] at h
      cases h
      exact ⟨0, s, st₁, Nat.succ_pos n, .first s, hrun, rfl⟩
    | error e st₁ =>
      cases e with
      | nonImmediateKey =>
        rw [mapNew_boxed hrun] at h
        cases h
      | heap e =>
        cases hgrow : Sys.effect api.heapGrow (api.setStore st₁ s) with
        | ok grown s₁ =>
          cases grown with
          | true =>
            rw [mapNew_again hrun hgrow] at h
            obtain ⟨k, s₂, st₂, hk, hgrown, hlast, rfl⟩ := ih h
            exact ⟨k + 1, s₂, st₂, by omega, .again hrun hgrow hgrown, hlast, rfl⟩
          | false =>
            rw [mapNew_full hrun, EStateM.bind, hgrow] at h
            cases h
        | error e' s₁ =>
          rw [mapNew_full hrun, EStateM.bind, hgrow] at h
          cases h

end

/-- Building a map is insensitive to heap growth. The loop of `MAP_NEW` and `rt_map_new` have
the same outcome from every state. Whenever some attempts fail, the heap grows each time, and
the pairs as given would then be built at the first attempt, both build just that; and what
they build is always built so. The map has the same pairs wherever it is built. -/
theorem map_new_insensitive_to_growth {σ : Type} (api : SystemApi σ)
    (pairs : List (Term × Term)) :
    (∀ n s, Sys.mapNewLoop api n pairs s = Rt.mapNew api pairs n s) ∧
    (∀ k n s s' t st, Grown api pairs k s s' → k < n →
      (Heap.mapFromPairs pairs (api.store s')).1 = .ok t st →
      Sys.mapNewLoop api n pairs s = .ok t (api.setStore st s')) ∧
    (∀ n s t s'', Sys.mapNewLoop api n pairs s = .ok t s'' →
      ∃ k s' st, k < n ∧ Grown api pairs k s s' ∧
        (Heap.mapFromPairs pairs (api.store s')).1 = .ok t st ∧ s'' = api.setStore st s') ∧
    ∀ (st₁ st₂ st₁' st₂' : Store) (t₁ t₂ : Term), st₁.heap.base + st₁.heap.cap ≤ 2 ^ 61 →
      st₂.heap.base + st₂.heap.cap ≤ 2 ^ 61 →
      (Heap.mapFromPairs pairs st₁).1 = .ok t₁ st₁' →
      (Heap.mapFromPairs pairs st₂).1 = .ok t₂ st₂' →
      Heap.mapPairs st₁'.mem t₁ = Heap.mapPairs st₂'.mem t₂ := by
  have heq : ∀ n, Sys.mapNewLoop api n pairs = Rt.mapNew api pairs n := fun n =>
    mapNewLoop_congr fun _ => rfl
  refine ⟨fun n s => by rw [heq], fun k n s s' t st hgrown hk hrun => ?_, fun n s t s'' hrun => ?_,
    fun st₁ st₂ st₁' st₂' t₁ t₂ hbound₁ hbound₂ hrun₁ hrun₂ => ?_⟩
  · rw [heq]
    exact hgrown.mapNew hrun hk
  · rw [heq] at hrun
    exact grown_of_mapNew hrun
  · rw [(Heap.mapFromPairs_ok hbound₁ hrun₁).2.2, (Heap.mapFromPairs_ok hbound₂ hrun₂).2.2]

/-- A system that doubles the heap when asked to. -/
def SystemApi.doubling : SystemApi Store :=
  { SystemApi.isolated with
    heapGrow := fun st => .ok true { st with heap.cap := 2 * st.heap.cap } }

/-- A map of two keys is built in the third attempt, as it would be in a first attempt then. -/
theorem threePairs_third_attempt :
    ∃ t st, (Heap.mapFromPairs threePairs ⟨fun _ => 0, ⟨100, 8, 0⟩⟩).1 = .ok t st ∧
      Sys.mapNewLoop SystemApi.doubling 3 threePairs ⟨fun _ => 0, ⟨100, 2, 0⟩⟩ = .ok t st := by
  have hgrown : Grown SystemApi.doubling threePairs 2 ⟨fun _ => 0, ⟨100, 2, 0⟩⟩
      ⟨fun _ => 0, ⟨100, 8, 0⟩⟩ := .again rfl rfl (.again rfl rfl (.first _))
  refine ⟨_, _, rfl, ?_⟩
  exact (map_new_insensitive_to_growth SystemApi.doubling threePairs).2.1 2 3 _ _ _ _ hgrown
    (by decide) rfl

end Yggdrasil
