import Mathlib.Order.CompletePartialOrder
import Yggdrasil.Lib.World
import Yggdrasil.Interp.Body
import Yggdrasil.Term.Build

/-!
# The contract of the system interface

The engines rely on the callbacks to hand out valid terms and to leave the objects
of the running process alone. The objects form a world of addresses with their
headers, which only grows while a process runs. Under the contract the parts an
instruction is made of never meet a word that is no term.
-/

namespace Yggdrasil

open EStateM (Keeps)

/-- Objects by address and header. -/
abbrev Objects := Set (ℕ × Word)

namespace Objects

/-- The addresses of the objects. -/
def space (w : Objects) : Set ℕ := {a | ∃ h, (a, h) ∈ w}

/-- A subset has a smaller space. -/
theorem space_mono {w w' : Objects} (h : w ≤ w') : w.space ⊆ w'.space :=
  fun _ ⟨hd, hmem⟩ => ⟨hd, h hmem⟩

/-- The objects stand in memory and hold only valid terms. -/
structure In (w : Objects) (mem : Mem) : Prop where
  /-- The objects hold only valid terms. -/
  objects : TermSpace mem w.space
  /-- The headers are those recorded. -/
  header : ∀ a h, (a, h) ∈ w → mem a = h

/-- The term points at an object of the given kind. -/
def HasBox (w : Objects) (t : Term) (b : Box) : Prop :=
  t.isBoxed = true ∧ ∃ h, (t.addr, h) ∈ w ∧ boxKind h = some b

variable {w w' : Objects} {mem : Mem} {t : Term} {b : Box}

/-- Objects keep their kind. -/
theorem HasBox.mono (h : w.HasBox t b) (hle : w ≤ w') : w'.HasBox t b := by
  obtain ⟨hboxed, hd, hmem, hkind⟩ := h
  exact ⟨hboxed, hd, hle hmem, hkind⟩

/-- The recorded kind is the one read from memory. -/
theorem HasBox.kind (h : w.HasBox t b) (hmem : w.In mem) : t.kind mem = some b.kind := by
  obtain ⟨hboxed, hd, hin, hkind⟩ := h
  rw [Term.kind_boxed mem hboxed, Term.header, hmem.header _ _ hin, hkind, Option.map_some]

/-- The kind read from memory is recorded. -/
theorem hasBox_of_kind (ht : t.Valid w.space) (hmem : w.In mem)
    (hkind : t.kind mem = some b.kind) : w.HasBox t b := by
  obtain ⟨⟨hd, hin⟩, hbox⟩ := TermSpace.box_of_kind ht hkind
  refine ⟨?_, hd, hin, hmem.header _ _ hin ▸ hbox⟩
  by_contra hboxed
  obtain ⟨k, hk, htuple, hcons, hbinary, hmap⟩ :=
    Term.kind_immediate mem (by simpa using hboxed) ht.1
  rw [hk, Option.some.injEq] at hkind
  cases b
  · exact htuple hkind
  · exact hcons hkind
  · exact hbinary hkind
  · exact hmap hkind

/-- All objects of a space, with the headers they have in memory. -/
def ofSpace (mem : Mem) (space : Set ℕ) : Objects := {p | p.1 ∈ space ∧ mem p.1 = p.2}

/-- The space of all its objects. -/
theorem space_ofSpace (mem : Mem) (space : Set ℕ) : (ofSpace mem space).space = space := by
  ext a
  exact ⟨fun ⟨_, ha, _⟩ => ha, fun ha => ⟨mem a, ha, rfl⟩⟩

/-- Allocation adds objects and keeps the headers of the old ones. -/
theorem le_ofSpace {st st' : Store} {space' : Set ℕ} (hst : st.Holds w.space)
    (hmem : w.In st.mem) (hgrow : st.Grows st' w.space space') : w ≤ ofSpace st'.mem space' := by
  rintro ⟨a, hd⟩ hin
  have ha : a ∈ w.space := ⟨hd, hin⟩
  have hpos := sizeAt_pos (hst.objects.ok a ha).kind
  refine ⟨hgrow.sub ha, ?_⟩
  have hframe := hgrow.frame _ (hst.outside ha hpos)
  rw [Nat.add_zero] at hframe
  exact hframe.trans (hmem.header a hd hin)

end Objects

variable {σ α : Type}

/-- A callback that keeps `I` and whose result satisfies `Q`. -/
abbrev Effect.Honours (I : Objects → σ → Prop) (w : Objects) (Q : Objects → α → Prop)
    (x : Effect σ α) : Prop :=
  Keeps I (fun _ => True) w Q x

/-- A callback that keeps `I`, whose result satisfies `Q`, and that reaches no
`unreachable!`. -/
abbrev Attempt.Honours (I : Objects → σ → Prop) (w : Objects) (Q : Objects → α → Prop)
    (x : Attempt σ α) : Prop :=
  Keeps I (· ≠ .panic) w Q x

/-- What the engines rely on: an invariant `I` of the system, given the objects of
the running process, that the callbacks keep when called with valid terms. -/
structure SystemApi.Contract (api : SystemApi σ) (I : Objects → σ → Prop) : Prop where
  /-- The objects stand in memory. -/
  reads : ∀ w s, I w s → w.In (api.store s).mem
  /-- The objects stand clear of the arena. -/
  holds : ∀ w s, I w s → (api.store s).Holds w.space
  /-- Allocation by the running process. -/
  grows : ∀ w s st space', I w s → (api.store s).Grows st w.space space' →
    I (Objects.ofSpace st.mem space') (api.setStore st s)
  send : ∀ w dst msg, dst.Valid w.space → msg.Valid w.space →
    Attempt.Honours I w (fun _ _ => True) (api.send dst msg)
  recv : ∀ w, Effect.Honours I w (fun w' t => t.Valid w'.space) api.recv
  spawn : ∀ w fn arg, arg.isBoxed = false → arg.Valid w.space →
    Attempt.Honours I w (fun _ _ => True) (api.spawn fn arg)
  safepoint : ∀ w, Effect.Honours I w (fun _ _ => True) api.safepoint
  atomGlobal : ∀ w a, Effect.Honours I w (fun _ _ => True) (api.atomGlobal a)
  print : ∀ w t, t.Valid w.space → Effect.Honours I w (fun _ _ => True) (api.print t)
  portOpen : ∀ w k, Attempt.Honours I w (fun w' t => t.Valid w'.space) (api.portOpen k)
  portSubmit : ∀ w p o a t, p.Valid w.space → a.Valid w.space → t.Valid w.space →
    Attempt.Honours I w (fun _ _ => True) (api.portSubmit p o a t)
  callExt : ∀ w m f args, (∀ t ∈ args, t.Valid w.space) →
    Attempt.Honours I w (fun w' t => t.Valid w'.space) (api.callExt m f args)
  bufToBin : ∀ w id, Attempt.Honours I w (fun w' t => t.Valid w'.space) (api.bufToBin id)
  binToBuf : ∀ w b, b.Valid w.space →
    Attempt.Honours I w (fun w' t => t.Valid w'.space) (api.binToBuf b)
  heapGrow : ∀ w, Effect.Honours I w (fun _ _ => True) api.heapGrow
  tailCall : ∀ w m f args, (∀ t ∈ args, t.Valid w.space) →
    Effect.Honours I w (fun _ _ => True) (api.tailCall m f args)
  tailCallLocal : ∀ w f args, (∀ t ∈ args, t.Valid w.space) →
    Effect.Honours I w (fun _ _ => True) (api.tailCallLocal f args)
  bufWrite : ∀ w b o d, b.Valid w.space → o.Valid w.space → d.Valid w.space →
    Attempt.Honours I w (fun w' t => t.Valid w'.space) (api.bufWrite b o d)
  bufNew : ∀ w n, n.Valid w.space →
    Attempt.Honours I w (fun w' t => t.Valid w'.space) (api.bufNew n)
  bufRead : ∀ w b o n, b.Valid w.space → o.Valid w.space → n.Valid w.space →
    Attempt.Honours I w (fun w' t => t.Valid w'.space) (api.bufRead b o n)
  sleepMs : ∀ w ms, Effect.Honours I w (fun _ _ => True) (api.sleepMs ms)
  ticks : ∀ w s, I w s → (api.ticks s).Valid w.space
  portSubmit2 : ∀ w p o a b t, p.Valid w.space → o.Valid w.space → a.Valid w.space →
    b.Valid w.space → t.Valid w.space →
    Attempt.Honours I w (fun _ _ => True) (api.portSubmit2 p o a b t)

/-- The isolated system keeps the contract. -/
theorem SystemApi.isolated_contract :
    SystemApi.isolated.Contract fun w s => w.In s.mem ∧ s.Holds w.space where
  reads _ _ h := h.1
  holds _ _ h := h.2
  grows w s st space' _ hgrow := by
    refine ⟨⟨?_, fun a h hmem => hmem.2⟩, ?_⟩
    · rw [Objects.space_ofSpace]
      exact hgrow.holds.objects
    · rw [Objects.space_ofSpace]
      exact hgrow.holds
  send _ _ _ _ _ := .throw (by simp)
  recv _ := .throw trivial
  spawn _ _ _ _ _ := .throw (by simp)
  safepoint _ := .pure trivial
  atomGlobal _ _ := .pure trivial
  print _ _ _ := .pure trivial
  portOpen _ _ := .throw (by simp)
  portSubmit _ _ _ _ _ _ _ _ := .throw (by simp)
  callExt _ _ _ _ _ := .throw (by simp)
  bufToBin _ _ := .throw (by simp)
  binToBuf _ _ _ := .throw (by simp)
  heapGrow _ := .pure trivial
  tailCall _ _ _ _ _ := .pure trivial
  tailCallLocal _ _ _ _ := .pure trivial
  bufWrite _ _ _ _ _ _ _ := .throw (by simp)
  bufNew _ _ _ := .throw (by simp)
  bufRead _ _ _ _ _ _ _ := .throw (by simp)
  sleepMs _ _ := .pure trivial
  ticks _ _ _ := Term.valid_int 0
  portSubmit2 _ _ _ _ _ _ _ _ _ _ _ := .throw (by simp)

/-- An empty memory holds no objects. -/
theorem Objects.empty_holds : (∅ : Objects).In (fun _ => 0) ∧
    Store.Holds ⟨fun _ => 0, Heap.new 0 0⟩ (∅ : Objects).space := by
  have hempty : (∅ : Objects).space = ∅ := by
    ext a
    simp [Objects.space]
  have hobjects : TermSpace (fun _ => 0) (∅ : Objects).space := by
    rw [hempty]
    exact ⟨⟨by simp, by simp⟩, by simp⟩
  refine ⟨⟨hobjects, by simp⟩, ⟨hobjects, by simp [hempty], ?_, ?_, ?_⟩⟩ <;> simp [Heap.new]

namespace Sys

/-- An end other than a reached `unreachable!`. -/
def NoPanic (e : Stop) : Prop := e ≠ .panic

variable {I : Objects → σ → Prop} {w : Objects}

/-- The computation keeps the invariant and reaches no `unreachable!`. -/
abbrev Sound (I : Objects → σ → Prop) (w : Objects) (Q : Objects → α → Prop) (x : Sys σ α) :
    Prop :=
  Keeps I NoPanic w Q x

/-- A callback without an error result. -/
theorem sound_effect {Q : Objects → α → Prop} {x : Effect σ α} (h : Effect.Honours I w Q x) :
    Sound I w Q (effect x) := by
  intro s hs
  have hx := h s hs
  unfold EStateM.Ends effect
  rcases hrun : x s with ⟨a, s'⟩ | ⟨⟨⟩, s'⟩
  · exact hx.ok hrun
  · exact ⟨by simp [NoPanic], (hx.error hrun).2⟩

/-- A callback that may trap. -/
theorem sound_attempt {Q : Objects → α → Prop} {x : Attempt σ α} (h : Attempt.Honours I w Q x) :
    Sound I w Q (attempt x) := by
  intro s hs
  have hx := h s hs
  unfold EStateM.Ends attempt
  rcases hrun : x s with ⟨a, s'⟩ | ⟨t | _ | _, s'⟩
  · exact hx.ok hrun
  · exact ⟨by simp [NoPanic], (hx.error hrun).2⟩
  · exact ⟨by simp [NoPanic], (hx.error hrun).2⟩
  · exact absurd rfl (hx.error hrun).1

/-- Give up or go on with the value. -/
theorem sound_orTrap (t : Trap) (o : Option α) :
    Sound I w (fun _ a => o = some a) (orTrap t o) := by
  cases o with
  | none => exact .throw (by simp [NoPanic])
  | some a => exact .pure rfl

/-- A memory walk that does not panic. -/
theorem sound_ofHalt {x : Except Halt α} (h : x ≠ .error .panic) :
    Sound I w (fun _ _ => True) (ofHalt x) := by
  rcases x with (_ | _) | a
  · exact .throw (by simp [NoPanic])
  · exact absurd rfl h
  · exact .pure trivial

/-- The integer value of a term. -/
theorem sound_int (t : Term) : Sound I w (fun _ _ => True) (int t) :=
  (sound_orTrap _ _).mono fun _ _ _ _ => trivial

section

variable {api : SystemApi σ} (hapi : api.Contract I)

include hapi

/-- Memory that is read holds the objects of the world. -/
theorem sound_mem : Sound I w (fun w' mem => w'.In mem) (mem api) :=
  fun s hs => ⟨w, le_refl w, hs, hapi.reads w s hs⟩

/-- The kind of a valid term is known. -/
theorem sound_kind {t : Term} (ht : t.Valid w.space) :
    Sound I w (fun w' k => ∀ b : Box, k = b.kind → w'.HasBox t b) (kind api t) := by
  refine (sound_mem hapi).bind fun mem w' hle hmem => ?_
  have hvalid := ht.mono (Objects.space_mono hle)
  cases hkind : t.kind mem with
  | none =>
    have hsome := hmem.objects.kind_isSome hvalid
    rw [hkind] at hsome
    cases hsome
  | some k =>
    refine .pure fun b hb => Objects.hasBox_of_kind hvalid hmem ?_
    rw [hkind, hb]

/-- A term that passes the test for a kind of box has one of that kind. -/
theorem sound_isBoxedKind {t : Term} (ht : t.Valid w.space) (b : Box) :
    Sound I w (fun w' is => is = true → w'.HasBox t b) (isBoxedKind api b.kind t) := by
  unfold isBoxedKind
  split
  · refine (sound_kind hapi ht).bind fun k w' _ hk => .pure fun his => ?_
    exact hk b (by simpa using his)
  · exact .pure fun his => nomatch his

private theorem sound_grow {Q : Objects → α → Prop} {x : Sys σ α}
    (hx : ∀ w', w ≤ w' → Sound I w' Q x) :
    Sound I w Q (do if ← effect api.heapGrow then x else throw (.trap .heapFull) : Sys σ α) := by
  refine (sound_effect (hapi.heapGrow w)).bind fun grown w' hle _ => ?_
  cases grown with
  | true => exact hx w' hle
  | false => exact .throw (by simp [NoPanic])

omit hapi in
private theorem later {Q : Objects → α → Prop} {x : Sys σ α} {w₁ : Objects} {s : σ}
    (hle : w ≤ w₁) (hs : I w₁ s) (hx : Sound I w₁ Q x) :
    EStateM.Ends (fun e s' => NoPanic e ∧ ∃ w', w ≤ w' ∧ I w' s')
      (fun a s' => ∃ w', w ≤ w' ∧ I w' s' ∧ Q w' a) x s := by
  refine (hx s hs).mono ?_ ?_
  · rintro e s' ⟨he, w₂, hle', hs'⟩
    exact ⟨he, w₂, hle.trans hle', hs'⟩
  · rintro a s' ⟨w₂, hle', hs', ha⟩
    exact ⟨w₂, hle.trans hle', hs', ha⟩

/-- The state after something has been built. -/
private theorem after_built {s : σ} (hs : I w s) {o : Option Term} {st : Store}
    (h : Built (api.store s) w.space o st) :
    ∃ w', w ≤ w' ∧ I w' (api.setStore st s) ∧ ∀ t ∈ o, t.Valid w'.space := by
  obtain ⟨space', hgrow, hvalid⟩ := h
  refine ⟨.ofSpace st.mem space', ?_, hapi.grows w s st space' hs hgrow, ?_⟩
  · exact Objects.le_ofSpace (hapi.holds w s hs) (hapi.reads w s hs) hgrow
  · rw [Objects.space_ofSpace]
    exact hvalid

/-- Allocation builds valid terms. -/
theorem sound_allocTerm {f : HeapM Term} (hf : ∀ w', w ≤ w' → Builds w'.space f) (n : ℕ) :
    Sound I w (fun w' t => t.Valid w'.space) (allocTerm api f n) := by
  induction n generalizing w with
  | zero => exact .throw (by simp [NoPanic])
  | succ n ih =>
    intro s hs
    have hbuilt := hf w (le_refl w) (api.store s) (hapi.holds w s hs)
    unfold EStateM.Ends allocTerm
    cases hrun : f (api.store s) with
    | ok t st =>
      obtain ⟨w', hle, hs', ht⟩ := after_built hapi hs (hbuilt.ok hrun)
      exact ⟨w', hle, hs', ht t rfl⟩
    | error e st =>
      obtain ⟨w', hle, hs', -⟩ := after_built hapi hs (hbuilt.error hrun)
      exact later hle hs' (sound_grow hapi fun w'' hle' =>
        ih fun w₃ hle₃ => hf w₃ (hle.trans (hle'.trans hle₃)))

/-- Map construction builds valid terms. -/
theorem sound_mapNewLoop {pairs : List (Term × Term)}
    (hpairs : ∀ kv ∈ pairs, kv.1.Valid w.space ∧ kv.2.Valid w.space) (n : ℕ) :
    Sound I w (fun w' t => t.Valid w'.space) (mapNewLoop api n pairs) := by
  induction n generalizing w pairs with
  | zero => exact .throw (by simp [NoPanic])
  | succ n ih =>
    intro s hs
    have hbuilt := mapFromPairs_built (hapi.holds w s hs) hpairs
    have hleft := mapFromPairs_pairs pairs (api.store s)
    unfold EStateM.Ends mapNewLoop
    rcases hrun : Heap.mapFromPairs pairs (api.store s) with ⟨⟨t, st⟩ | ⟨e | _, st⟩, pairs'⟩
    · obtain ⟨w', hle, hs', ht⟩ := after_built hapi hs
        (hbuilt.ok (show (Heap.mapFromPairs pairs (api.store s)).1 = .ok t st by rw [hrun]))
      exact ⟨w', hle, hs', ht t rfl⟩
    · obtain ⟨w', hle, hs', -⟩ := after_built hapi hs (hbuilt.error
        (show (Heap.mapFromPairs pairs (api.store s)).1 = .error (.heap e) st by rw [hrun]))
      refine later hle hs' (sound_grow hapi fun w'' hle' => ih fun kv hkv => ?_)
      have hmem := hpairs kv (hleft kv (by rw [hrun]; exact hkv))
      have hsub := Objects.space_mono (hle.trans hle')
      exact ⟨hmem.1.mono hsub, hmem.2.mono hsub⟩
    · obtain ⟨w', hle, hs', -⟩ := after_built hapi hs (hbuilt.error
        (show (Heap.mapFromPairs pairs (api.store s)).1 = .error .nonImmediateKey st by rw [hrun]))
      exact ⟨by simp [NoPanic], w', hle, hs'⟩

/-- Map update builds valid terms. -/
theorem sound_mapPutLoop {m k v : Term} (hm : m.Valid w.space) (hbox : w.HasBox m .map)
    (hk : k.Valid w.space) (hv : v.Valid w.space) (n : ℕ) :
    Sound I w (fun w' t => t.Valid w'.space) (mapPutLoop api m k v n) := by
  induction n generalizing w with
  | zero => exact .throw (by simp [NoPanic])
  | succ n ih =>
    intro s hs
    have hbuilt := mapPut_built (hapi.holds w s hs) hm (hbox.kind (hapi.reads w s hs)) hk hv
    unfold EStateM.Ends mapPutLoop
    rcases hrun : Heap.mapPut m k v (api.store s) with ⟨t, st⟩ | ⟨e | _, st⟩
    · obtain ⟨w', hle, hs', ht⟩ := after_built hapi hs (hbuilt.ok hrun)
      exact ⟨w', hle, hs', ht t rfl⟩
    · obtain ⟨w', hle, hs', -⟩ := after_built hapi hs (hbuilt.error hrun)
      refine later hle hs' (sound_grow hapi fun w'' hle' => ?_)
      have hall := hle.trans hle'
      have hsub := Objects.space_mono hall
      exact ih (hm.mono hsub) (hbox.mono hall) (hk.mono hsub) (hv.mono hsub)
    · obtain ⟨w', hle, hs', -⟩ := after_built hapi hs (hbuilt.error hrun)
      exact ⟨by simp [NoPanic], w', hle, hs'⟩

/-- Reading the bytes of a list keeps the invariant and never panics. -/
theorem sound_listBytes {t : Term} (ht : t.Valid w.space) (n : ℕ) :
    Sound I w (fun _ _ => True) (listBytes api n t) := by
  induction n generalizing w t with
  | zero => exact .throw (by simp [NoPanic])
  | succ n ih =>
    refine (sound_kind hapi ht).bind fun k w₁ hle₁ hk => ?_
    split
    · rename_i hcons
      have hbox := hk .cons hcons
      refine (sound_mem hapi).bind fun _ w₂ hle₂ _ => (sound_int _).bind fun h w₃ hle₃ _ => ?_
      split
      · exact .throw (by simp [NoPanic])
      · refine (sound_mem hapi).bind fun mem w₄ hle₄ hmem => ?_
        have hbox' := hbox.mono (hle₂.trans (hle₃.trans hle₄))
        have ht' := ht.mono (Objects.space_mono (hle₁.trans (hle₂.trans (hle₃.trans hle₄))))
        refine (ih (hmem.objects.valid_tail ht' (hbox'.kind hmem))).bind fun _ _ _ _ => ?_
        exact .pure trivial
    · split
      · exact .pure trivial
      · exact .throw (by simp [NoPanic])

/-- The elements of a list are valid. -/
theorem sound_listElems {t : Term} (ht : t.Valid w.space) (n : ℕ) :
    Sound I w (fun w' es => ∀ e ∈ es, e.Valid w'.space) (listElems api n t) := by
  induction n generalizing w t with
  | zero => exact .throw (by simp [NoPanic])
  | succ n ih =>
    refine (sound_isBoxedKind hapi ht .cons).bind fun is w₁ hle₁ his => ?_
    split
    · rename_i hcons
      have hbox := his hcons
      have ht₁ := ht.mono (Objects.space_mono hle₁)
      refine (sound_mem hapi).bind fun mem w₂ hle₂ hmem => ?_
      have ht₂ := ht₁.mono (Objects.space_mono hle₂)
      have htail := hmem.objects.valid_tail ht₂ ((hbox.mono hle₂).kind hmem)
      refine (ih htail).bind fun es w₃ hle₃ hes => ?_
      refine (sound_mem hapi).bind fun mem' w₄ hle₄ hmem' => .pure ?_
      have ht₄ := ht₂.mono (Objects.space_mono (hle₃.trans hle₄))
      have hbox' := hbox.mono (hle₂.trans (hle₃.trans hle₄))
      rw [List.forall_mem_cons]
      exact ⟨hmem'.objects.valid_head ht₄ (hbox'.kind hmem'),
        fun e he => (hes e he).mono (Objects.space_mono hle₄)⟩
    · split
      · exact .pure (by simp)
      · exact .throw (by simp [NoPanic])

end

end Sys

end Yggdrasil
