import Yggdrasil.Lib.Transition
import Yggdrasil.Term.Makes

/-!
# Sessions on a heap

A session is a sequence of builder calls on one heap, some of which fail, with watermarks
taken in between and the heap rolled back to them. Beside the store it records which terms were
returned, and the value each of them is meant to have.
-/

namespace Yggdrasil

/-- A call of one of the builders of terms, with its arguments. -/
inductive Call where
  /-- `tuple`. -/
  | tuple (elems : List Term)
  /-- `cons`. -/
  | cons (head tail : Term)
  /-- `binary`. -/
  | binary (data : List UInt8)
  /-- `list`. -/
  | list (elems : List Term)
  /-- `map_from_pairs`. -/
  | mapFromPairs (pairs : List (Term × Term))
  /-- `map_put`. -/
  | mapPut (base key val : Term)
  /-- `copy_term` of a term with paths shorter than `n`. -/
  | copyTerm (n : ℕ) (src : Term)

/-- The term a call returned, if it did, and the store it left. -/
def Call.outcome {ε : Type} : EStateM.Result ε Store Term → Option Term × Store
  | .ok t st => (some t, st)
  | .error _ st => (none, st)

/-- Run a call. -/
def Call.run : Call → Store → Option Term × Store
  | .tuple elems, st => outcome (Heap.tuple elems st)
  | .cons head tail, st => outcome (Heap.cons head tail st)
  | .binary data, st => outcome (Heap.binary data st)
  | .list elems, st => outcome (Heap.list elems st)
  | .mapFromPairs pairs, st => outcome (Heap.mapFromPairs pairs st).1
  | .mapPut base key val, st => outcome (Heap.mapPut base key val st)
  | .copyTerm n src, st => outcome (Yggdrasil.copyTerm n src st)

/-- A session: a store and the terms built in it so far. -/
structure Session where
  /-- Memory and the heap. -/
  store : Store
  /-- The terms returned so far, and what they are meant to be. -/
  returned : List (Term × Datum)
  /-- The watermarks, the last one first, each with the terms returned before it was taken. -/
  marks : List (ℕ × List (Term × Datum))

namespace Session

/-- The terms a program can hold: those there were at the start, given by `given`, those that
calls have returned, immediates, and what can be read from a term it holds. -/
inductive Has (given : Term → Datum → Prop) (s : Session) : Term → Datum → Prop
  /-- A term that was there at the start. -/
  | given {t : Term} {d : Datum} : given t d → Has given s t d
  /-- A term that was returned. -/
  | returned {t : Term} {d : Datum} : (t, d) ∈ s.returned → Has given s t d
  /-- An immediate. -/
  | immediate {t : Term} : t.isBoxed = false → t.tag ≠ kindFwd → Has given s t (.immediate t.word)
  /-- An element of a tuple. -/
  | elem {t : Term} {ds : List Datum} {d : Datum} {i : ℕ} : Has given s t (.tuple ds) →
    ds[i]? = some d → Has given s (t.tupleElem s.store.mem i) d
  /-- The head of a list cell. -/
  | head {t : Term} {d d' : Datum} : Has given s t (.cons d d') →
    Has given s (t.head s.store.mem) d
  /-- The tail of a list cell. -/
  | tail {t : Term} {d d' : Datum} : Has given s t (.cons d d') →
    Has given s (t.tail s.store.mem) d'
  /-- A value of a map. -/
  | value {t v : Term} {get : Word → Option Datum} {w : Word} {d : Datum} :
    Has given s t (.map get) → t.mapGet s.store.mem ⟨w⟩ = some v → get w = some d →
    Has given s v d

/-- The call has arguments that the program holds, and is to return a term for `d`. -/
inductive Intends (given : Term → Datum → Prop) (s : Session) : Call → Datum → Prop
  /-- A tuple of what the elements are. -/
  | tuple {elems : List Term} {ds : List Datum} : List.Forall₂ (s.Has given) elems ds →
    Intends given s (.tuple elems) (.tuple ds)
  /-- A list cell of what the parts are. -/
  | cons {hd tl : Term} {d d' : Datum} : s.Has given hd d → s.Has given tl d' →
    Intends given s (.cons hd tl) (.cons d d')
  /-- A binary. -/
  | binary (data : List UInt8) : Intends given s (.binary data) (.binary data)
  /-- A list of what the elements are. -/
  | list {elems : List Term} {ds : List Datum} : List.Forall₂ (s.Has given) elems ds →
    Intends given s (.list elems) (.list ds)
  /-- A map to the values of the last pairs. -/
  | mapFromPairs {pairs : List (Term × Term)} {wds : List (Word × Datum)} :
    List.Forall₂ (fun kv wd => (∃ d, s.Has given kv.1 d) ∧ kv.1.word = wd.1 ∧
      s.Has given kv.2 wd.2) pairs wds →
    Intends given s (.mapFromPairs pairs) (.map (lastValue wds))
  /-- A map with one value changed. -/
  | mapPut {m k v : Term} {get : Word → Option Datum} {dk dv : Datum} :
    s.Has given m (.map get) → s.Has given k dk → s.Has given v dv →
    Intends given s (.mapPut m k v) (.map (Function.update get k.word (some dv)))
  /-- The same again. -/
  | copyTerm {n : ℕ} {t : Term} {d : Datum} : s.Has given t d → DepthLt s.store.mem n t →
    Intends given s (.copyTerm n t) d

/-- One step of a session. -/
inductive Step (given : Term → Datum → Prop) : Session → Session → Prop
  /-- A call succeeds. -/
  | returns {s : Session} {c : Call} {d : Datum} {t : Term} {st : Store} :
    s.Intends given c d → c.run s.store = (some t, st) →
    Step given s { s with store := st, returned := (t, d) :: s.returned }
  /-- A call fails. -/
  | fails {s : Session} {c : Call} {d : Datum} {st : Store} :
    s.Intends given c d → c.run s.store = (none, st) → Step given s { s with store := st }
  /-- A watermark is taken. -/
  | mark {s : Session} :
    Step given s { s with marks := (s.store.heap.usedBytes, s.returned) :: s.marks }
  /-- The heap is rolled back to a watermark; the terms and watermarks since are given up. -/
  | truncate {s : Session} {w : ℕ} {kept : List (Term × Datum)}
    {later earlier : List (ℕ × List (Term × Datum))} :
    s.marks = later ++ (w, kept) :: earlier →
    Step given s ⟨{ s.store with heap := s.store.heap.truncateTo w }, kept, (w, kept) :: earlier⟩

/-- What is true of a store in a session that began with `st₀`, whose objects were `space₀`,
and of the terms it has returned. -/
structure Sound (st₀ : Store) (space₀ : Set ℕ) (st : Store) (returned : List (Term × Datum))
    (space : Set ℕ) : Prop where
  /-- The objects are complete, do not overlap and are clear of the free part of the heap. -/
  holds : st.Holds space
  /-- The heap is where it was. -/
  base_eq : st.heap.base = st₀.heap.base
  /-- It has the capacity it had. -/
  cap_eq : st.heap.cap = st₀.heap.cap
  /-- It is not rolled back behind the start. -/
  top_ge : st₀.heap.top ≤ st.heap.top
  /-- The objects of the start are still there. -/
  sub : space₀ ⊆ space
  /-- They have not changed. -/
  agree : Agree st₀.mem st.mem space₀
  /-- The others stand in the used part of the heap. -/
  inside : ∀ a ∈ space, a ∉ space₀ → st.heap.base + st₀.heap.top ≤ a ∧
    a + sizeAt st.mem a ≤ st.heap.base + st.heap.top
  /-- The terms that were returned have the values they are meant to have. -/
  means : ∀ p ∈ returned, p.1.Means st.mem space p.2

section Soundness

variable {st₀ st st' : Store} {space₀ space space' : Set ℕ} {returned : List (Term × Datum)}
  {s s' : Session} {t : Term} {d : Datum}

/-- Soundness depends on the words outside the free part only. -/
private theorem Sound.frame (hstart : st₀.Holds space₀) (h : Sound st₀ space₀ st returned space)
    {mem' : Mem} (hmem : ∀ c, c < st.heap.base + st.heap.top ∨ st.heap.base + st.heap.cap ≤ c →
      mem' c = st.mem c) : Sound st₀ space₀ ⟨mem', st.heap⟩ returned space := by
  have hst := h.holds
  have hag : Agree st.mem mem' space := fun _ ha _ hj => hmem _ (hst.outside ha hj)
  refine ⟨⟨hst.objects.congr hag, fun a ha => ?_, hst.top_le, hst.bound, hst.cap_lt⟩, h.base_eq,
    h.cap_eq, h.top_ge, h.sub, h.agree.trans hstart.objects (hag.mono h.sub),
    fun a ha hnew => ?_, fun p hp => (h.means p hp).mono hst.objects hag subset_rfl⟩
  · rw [hag.sizeAt_eq hst.objects ha]
    exact hst.clear a ha
  · rw [hag.sizeAt_eq hst.objects ha]
    exact h.inside a ha hnew

/-- A store that has grown is sound again. -/
private theorem Sound.grows (hstart : st₀.Holds space₀) (h : Sound st₀ space₀ st returned space)
    (hgrow : st.Grows st' space space') : Sound st₀ space₀ st' returned space' := by
  have hag := hgrow.agree h.holds
  have hbase := hgrow.base_eq
  have htop := hgrow.top_le
  refine ⟨hgrow.holds, hbase.trans h.base_eq, hgrow.cap_eq.trans h.cap_eq, h.top_ge.trans htop,
    h.sub.trans hgrow.sub, h.agree.trans hstart.objects (hag.mono h.sub), fun a ha hnew => ?_,
    fun p hp => (h.means p hp).mono h.holds.objects hag hgrow.sub⟩
  by_cases hold : a ∈ space
  · have hin := h.inside a hold hnew
    rw [hag.sizeAt_eq h.holds.objects hold]
    omega
  · have hfresh := hgrow.fresh a ha hold
    have hclear := hgrow.holds.clear a ha
    have hpos := sizeAt_pos (hgrow.holds.objects.ok a ha).kind
    have hcap := hgrow.cap_eq
    have htop₀ := h.top_ge
    omega

/-- The terms a program holds have the values they are meant to have. -/
private theorem Sound.means_of_has (hstart : st₀.Holds space₀)
    (h : Sound st₀ space₀ s.store s.returned space)
    (hhas : s.Has (Term.Means st₀.mem space₀) t d) : t.Means s.store.mem space d := by
  have hobjects := h.holds.objects
  induction hhas with
  | given hgiven => exact hgiven.mono hstart.objects h.agree h.sub
  | returned hmem => exact h.means _ hmem
  | @immediate t hbox htag =>
    refine ⟨⟨htag, fun hboxed => ?_⟩, Term.denotes_immediate htag hbox⟩
    rw [hbox] at hboxed
    cases hboxed
  | elem _ hd ih =>
    obtain ⟨hkind, harity, helems⟩ := ih.denotes.tuple_inv ih.valid
    have hi := (List.getElem?_eq_some_iff.mp hd).1
    exact ⟨hobjects.valid_tupleElem ih.valid hkind (by omega), helems _ _ hd⟩
  | head _ ih =>
    obtain ⟨hkind, hh, -⟩ := ih.denotes.cons_inv ih.valid
    exact ⟨hobjects.valid_head ih.valid hkind, hh⟩
  | tail _ ih =>
    obtain ⟨hkind, -, hl⟩ := ih.denotes.cons_inv ih.valid
    exact ⟨hobjects.valid_tail ih.valid hkind, hl⟩
  | @value t v get w d _ hv hd ih =>
    have hrel := ih.mapGet hobjects w
    rw [hv, hd] at hrel
    cases hrel with
    | some hmeans => exact hmeans

private theorem makes_outcome {ε : Type} {f : EStateM ε Store Term} (h : Makes space d f st) :
    ∃ space', st.Grows (Call.outcome (f st)).2 space space' ∧
      ∀ t, (Call.outcome (f st)).1 = some t → t.Means (Call.outcome (f st)).2.mem space' d := by
  unfold Makes EStateM.Ends at h
  cases hrun : f st with
  | ok t st' =>
    rw [hrun] at h
    obtain ⟨space', hgrow, ht⟩ := h
    refine ⟨space', hgrow, fun t' ht' => ?_⟩
    cases ht'
    exact ht
  | error e st' =>
    rw [hrun] at h
    obtain ⟨space', hgrow⟩ := h
    exact ⟨space', hgrow, fun t' ht' => by cases ht'⟩

/-- What a call does. -/
private theorem Sound.call (hstart : st₀.Holds space₀)
    (h : Sound st₀ space₀ s.store s.returned space) {c : Call}
    (hc : s.Intends (Term.Means st₀.mem space₀) c d) :
    ∃ space', s.store.Grows (c.run s.store).2 space space' ∧
      ∀ t, (c.run s.store).1 = some t → t.Means (c.run s.store).2.mem space' d := by
  have hst := h.holds
  have hmeans : ∀ {t d}, s.Has (Term.Means st₀.mem space₀) t d → t.Means s.store.mem space d :=
    fun hhas => h.means_of_has hstart hhas
  cases hc with
  | tuple hargs => exact makes_outcome (makes_tuple hst (hargs.imp fun _ _ => hmeans))
  | cons hhd htl => exact makes_outcome (makes_cons hst (hmeans hhd) (hmeans htl))
  | binary data => exact makes_outcome (makes_binary hst data)
  | list hargs => exact makes_outcome (makes_list hst (hargs.imp fun _ _ => hmeans))
  | mapFromPairs hargs =>
    refine makes_outcome (makes_mapFromPairs hst (hargs.imp fun kv wd harg => ?_))
    obtain ⟨⟨dk, hk⟩, hword, hv⟩ := harg
    exact ⟨(hmeans hk).valid, hword, hmeans hv⟩
  | mapPut hm hk hv =>
    exact makes_outcome (makes_mapPut hst (hmeans hm) (hmeans hk).valid (hmeans hv))
  | copyTerm ht hdepth => exact makes_outcome (makes_copyTerm hst (hmeans ht) hdepth)

/-- The invariant of sessions: the store is sound, and so it was, with the terms returned by
then, at each watermark. -/
private structure Inv (st₀ : Store) (space₀ : Set ℕ) (s : Session) : Prop where
  sound : ∃ space, Sound st₀ space₀ s.store s.returned space
  marks : ∀ m ∈ s.marks, m.1 / 8 ≤ s.store.heap.top ∧
    ∃ space, Sound st₀ space₀ { s.store with heap := s.store.heap.truncateTo m.1 } m.2 space
  order : s.marks.Pairwise fun m m' => m'.1 / 8 ≤ m.1 / 8

/-- The watermarks stay sound when the store grows. -/
private theorem Inv.marks_grow (hstart : st₀.Holds space₀) (h : Inv st₀ space₀ s)
    (hgrow : s.store.Grows st' space space') :
    ∀ m ∈ s.marks, m.1 / 8 ≤ st'.heap.top ∧
      ∃ space, Sound st₀ space₀ { st' with heap := st'.heap.truncateTo m.1 } m.2 space := by
  intro m hm
  obtain ⟨hle, space, hsound⟩ := h.marks m hm
  have hheap : st'.heap.truncateTo m.1 = s.store.heap.truncateTo m.1 := by
    rw [Heap.truncateTo, Heap.truncateTo, hgrow.base_eq, hgrow.cap_eq]
  refine ⟨hle.trans hgrow.top_le, space, ?_⟩
  rw [hheap]
  refine hsound.frame hstart fun c hc => hgrow.frame c ?_
  have hc : c < s.store.heap.base + m.1 / 8 ∨ s.store.heap.base + s.store.heap.cap ≤ c := hc
  omega

private theorem truncateTo_usedBytes (h : Heap) : h.truncateTo h.usedBytes = h := by
  rw [Heap.truncateTo, Heap.usedBytes, Nat.mul_div_cancel _ (by decide)]

/-- Every step keeps the invariant. -/
private theorem Inv.step (hstart : st₀.Holds space₀) (h : Inv st₀ space₀ s)
    (hstep : Step (Term.Means st₀.mem space₀) s s') : Inv st₀ space₀ s' := by
  obtain ⟨space, hsound⟩ := h.sound
  cases hstep with
  | @returns c d t st hc hrun =>
    obtain ⟨space', hgrow, hmeans⟩ := hsound.call hstart hc
    rw [hrun] at hgrow hmeans
    have hsound' := hsound.grows hstart hgrow
    have hmarks := h.marks_grow hstart hgrow
    refine ⟨⟨space', { hsound' with means := fun p hp => ?_ }⟩, hmarks, h.order⟩
    rcases List.mem_cons.mp hp with rfl | hp
    · exact hmeans t rfl
    · exact hsound'.means p hp
  | @fails c d st hc hrun =>
    obtain ⟨space', hgrow, -⟩ := hsound.call hstart hc
    rw [hrun] at hgrow
    have hmarks := h.marks_grow hstart hgrow
    exact ⟨⟨space', hsound.grows hstart hgrow⟩, hmarks, h.order⟩
  | mark =>
    have hsame := truncateTo_usedBytes s.store.heap
    refine ⟨⟨space, hsound⟩, fun m hm => ?_, .cons (fun m hm => ?_) h.order⟩
    · rcases List.mem_cons.mp hm with rfl | hm
      · refine ⟨by simp [Heap.usedBytes], space, ?_⟩
        dsimp only
        rw [hsame]
        exact hsound
      · exact h.marks m hm
    · have hle := (h.marks m hm).1
      simpa [Heap.usedBytes] using hle
  | @truncate w kept later earlier hmarks =>
    have horder : ((w, kept) :: earlier).Pairwise fun m m' => m'.1 / 8 ≤ m.1 / 8 := by
      have horder := h.order
      rw [hmarks] at horder
      exact (List.pairwise_append.mp horder).2.1
    have hmark : ∀ m ∈ (w, kept) :: earlier, m ∈ s.marks := fun m hm => by
      rw [hmarks]
      exact List.mem_append_right later hm
    refine ⟨(h.marks _ (hmark _ List.mem_cons_self)).2, fun m hm => ⟨?_, ?_⟩, horder⟩
    · rcases List.mem_cons.mp hm with rfl | hlater
      · exact Nat.le_refl _
      · exact (List.pairwise_cons.mp horder).1 m hlater
    · exact (h.marks m (hmark m hm)).2

/-- Term builders are correct and leave everything else alone. Take any session on a heap that
begins with well-formed objects: builder calls with arguments the program holds, some of which
fail, watermarks, and roll-backs to them. At every moment the objects are complete, do not
overlap and lie within the capacity, those of the start have not changed, and every returned
term that was not given up has its intended value, also those returned before a watermark the
heap can still be rolled back to. The next call changes no object, whether it fails or not,
and what it returns has its intended value. -/
theorem builders_correct_and_immutable (hstart : st₀.Holds space₀)
    (hrun : Transition.Reaches (· = ⟨st₀, [], []⟩) (Step (Term.Means st₀.mem space₀)) s) :
    ∃ space, Sound st₀ space₀ s.store s.returned space ∧
      (∀ m ∈ s.marks, ∀ p ∈ m.2, p.1.Denotes s.store.mem p.2) ∧
      ∀ c d, s.Intends (Term.Means st₀.mem space₀) c d →
        Agree s.store.mem (c.run s.store).2.mem space ∧
        ∀ t, (c.run s.store).1 = some t → t.Denotes (c.run s.store).2.mem d := by
  have hinv : Inv st₀ space₀ s := by
    refine Transition.Reaches.invariant (P := Inv st₀ space₀) ?_
      (fun _ _ h hstep => h.step hstart hstep) hrun
    rintro _ rfl
    refine ⟨⟨space₀, hstart, rfl, rfl, Nat.le_refl _, subset_rfl, fun _ _ _ _ => rfl,
      fun a ha hnew => absurd ha hnew, ?_⟩, ?_, List.Pairwise.nil⟩
    · exact fun p hp => absurd hp List.not_mem_nil
    · exact fun m hm => absurd hm List.not_mem_nil
  obtain ⟨space, hsound⟩ := hinv.sound
  refine ⟨space, hsound, fun m hm p hp => ?_, fun c d hc => ?_⟩
  · obtain ⟨-, space', hsound'⟩ := hinv.marks m hm
    exact (hsound'.means p hp).denotes
  · obtain ⟨space', hgrow, hmeans⟩ := hsound.call hstart hc
    exact ⟨hgrow.agree hsound.holds, fun t ht => (hmeans t ht).denotes⟩

end Soundness

/-- A pair. -/
def pairCall : Call := .tuple [Term.nil, Term.int 1]

/-- What it is meant to be. -/
def pairDatum : Datum := .tuple [.immediate Term.nil.word, .immediate (Term.int 1).word]

/-- The store with the pair. -/
def pairStore : Store := (pairCall.run sixteenWords).2

/-- The store with a binary behind the pair. -/
def binaryStore : Store := (Call.run (.binary [1, 2, 3]) pairStore).2

/-- A list of four cells. -/
def listCall : Call := .list [Term.nil, Term.nil, Term.nil, Term.nil]

/-- A pair is built and a watermark is taken. A binary is built behind it, a list of four cells
fails after three of them, and the heap is rolled back. The pair is still there. -/
theorem rolled_back_pair :
    Transition.Reaches (· = ⟨sixteenWords, [], []⟩) (Step (Term.Means sixteenWords.mem ∅))
      ⟨⟨(listCall.run binaryStore).2.mem, ⟨100, 16, 3⟩⟩, [(Term.ofAddr 100, pairDatum)],
        [(24, [(Term.ofAddr 100, pairDatum)])]⟩ ∧
      (Term.ofAddr 100).Denotes (listCall.run binaryStore).2.mem pairDatum := by
  have hnil : ∀ s : Session, s.Has (Term.Means sixteenWords.mem ∅) Term.nil
      (.immediate Term.nil.word) := fun s => .immediate (by decide) (by decide)
  have hpair : ∀ s : Session, s.Intends (Term.Means sixteenWords.mem ∅) pairCall pairDatum :=
    fun s => .tuple (.cons (hnil s) (.cons (.immediate (by decide) (by decide)) .nil))
  have hlist : ∀ s : Session, s.Intends (Term.Means sixteenWords.mem ∅) listCall _ := fun s =>
    .list (.cons (hnil s) (.cons (hnil s) (.cons (hnil s) (.cons (hnil s) .nil))))
  have hbuilt : Transition.Reaches (· = ⟨sixteenWords, [], []⟩)
      (Step (Term.Means sixteenWords.mem ∅))
      ⟨pairStore, [(Term.ofAddr 100, pairDatum)], []⟩ :=
    .step (.init rfl) (.returns (hpair _) rfl)
  have hbinary := (hbuilt.step .mark).step (.returns (.binary [1, 2, 3]) rfl)
  have hfailed := hbinary.step (.fails (hlist _) rfl)
  have hback := hfailed.step (@Step.truncate _ _ _ _ [] _ rfl)
  obtain ⟨space, hsound, -⟩ := builders_correct_and_immutable sixteenWords_holds hback
  exact ⟨hback, (hsound.means _ List.mem_cons_self).denotes⟩

end Session

end Yggdrasil
