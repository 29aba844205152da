import Yggdrasil.Lib.Transition
import Mathlib.Data.List.Infix
import Mathlib.Data.Nat.ModEq

/-!
# The lock-free ring

One producer and one consumer share an array of `N` slots and two 32-bit cursors, each
written by one side only. Every load and store is a step of its own, so either side may
act on an old copy of the other's cursor. The cursors wrap around.
-/

namespace Yggdrasil

namespace Spsc

variable {α : Type}

/-- Where the producer is in `push`. -/
inductive Producer (α : Type) where
  /-- Outside. -/
  | idle
  /-- It has read the tail. -/
  | loadedTail (v : α) (tail : UInt32)
  /-- It has read the head and found room. -/
  | ready (v : α) (tail : UInt32)
  /-- It has written the slot. -/
  | written (v : α) (tail : UInt32)

/-- Where the consumer is in `pop`. -/
inductive Consumer (α : Type) where
  /-- Outside. -/
  | idle
  /-- It has read the head. -/
  | loadedHead (head : UInt32)
  /-- It has read the tail and found an element. -/
  | ready (head : UInt32)
  /-- It has read the slot. -/
  | taken (v : α) (head : UInt32)

/-- The ring and its two sides. -/
structure State (α : Type) where
  /-- The slots. -/
  entries : ℕ → α
  /-- The consumer's cursor. -/
  head : UInt32
  /-- The producer's cursor. -/
  tail : UInt32
  /-- The producer. -/
  producer : Producer α
  /-- The consumer. -/
  consumer : Consumer α
  /-- History: the values pushed with success. -/
  pushed : List α
  /-- History: the values popped. -/
  popped : List α

/-- Any equal cursors, and nobody inside. -/
def Init (s : State α) : Prop :=
  s.head = s.tail ∧ s.producer = .idle ∧ s.consumer = .idle ∧ s.pushed = [] ∧ s.popped = []

variable (N : ℕ)

/-- The steps of `push` and `pop` on a ring of capacity `N`. A comparison is local and
belongs to the load before it. -/
inductive Step : State α → State α → Prop
  /-- `push` reads the tail. -/
  | pushTail {s : State α} (v : α) : s.producer = .idle →
    Step s { s with producer := .loadedTail v s.tail }
  /-- `push` reads the head and finds room. -/
  | pushHead {s : State α} {v : α} {tail : UInt32} : s.producer = .loadedTail v tail →
    (tail - s.head).toNat ≠ N → Step s { s with producer := .ready v tail }
  /-- `push` reads the head and fails. -/
  | pushFull {s : State α} {v : α} {tail : UInt32} : s.producer = .loadedTail v tail →
    (tail - s.head).toNat = N → Step s { s with producer := .idle }
  /-- `push` writes the slot. -/
  | pushWrite {s : State α} {v : α} {tail : UInt32} : s.producer = .ready v tail →
    Step s { s with
      entries := Function.update s.entries (tail.toNat % N) v
      producer := .written v tail }
  /-- `push` stores the tail. -/
  | pushStore {s : State α} {v : α} {tail : UInt32} : s.producer = .written v tail →
    Step s { s with tail := tail + 1, producer := .idle, pushed := s.pushed ++ [v] }
  /-- `pop` reads the head. -/
  | popHead {s : State α} : s.consumer = .idle →
    Step s { s with consumer := .loadedHead s.head }
  /-- `pop` reads the tail and finds an element. -/
  | popTail {s : State α} {head : UInt32} : s.consumer = .loadedHead head → head ≠ s.tail →
    Step s { s with consumer := .ready head }
  /-- `pop` reads the tail and returns nothing. -/
  | popEmpty {s : State α} {head : UInt32} : s.consumer = .loadedHead head → head = s.tail →
    Step s { s with consumer := .idle }
  /-- `pop` reads the slot. -/
  | popRead {s : State α} {head : UInt32} : s.consumer = .ready head →
    Step s { s with consumer := .taken (s.entries (head.toNat % N)) head }
  /-- `pop` stores the head. -/
  | popStore {s : State α} {v : α} {head : UInt32} : s.consumer = .taken v head →
    Step s { s with head := head + 1, consumer := .idle, popped := s.popped ++ [v] }

/-- What the producer knows, when `len` elements are in the ring. -/
def ProducerOk (s : State α) (len : ℕ) : Producer α → Prop
  | .idle => True
  | .loadedTail _ tail => tail = s.tail
  | .ready _ tail => tail = s.tail ∧ len < N
  | .written v tail => tail = s.tail ∧ len < N ∧ s.entries (tail.toNat % N) = v

/-- What the consumer knows. -/
def ConsumerOk (s : State α) : Consumer α → Prop
  | .idle => True
  | .loadedHead head => head = s.head
  | .ready head => head = s.head ∧ s.popped.length < s.pushed.length
  | .taken v head => head = s.head ∧ s.pushed[s.popped.length]? = some v

/-- The invariant, for cursors that started at `start`. -/
structure Inv (start : ℕ) (s : State α) : Prop where
  /-- The tail counts the pushed values, modulo the word size. -/
  tail_eq : s.tail.toNat = (start + s.pushed.length) % 2 ^ 32
  /-- The head counts the popped values, modulo the word size. -/
  head_eq : s.head.toNat = (start + s.popped.length) % 2 ^ 32
  /-- At most `N` values are in the ring. -/
  length_le : s.pushed.length ≤ s.popped.length + N
  /-- The popped values come first among the pushed ones. -/
  isPrefix : s.popped <+: s.pushed
  /-- The others are in their slots. -/
  slots : ∀ k v, s.popped.length ≤ k → s.pushed[k]? = some v → s.entries ((start + k) % N) = v
  /-- The producer. -/
  producer : ProducerOk N s (s.pushed.length - s.popped.length) s.producer
  /-- The consumer. -/
  consumer : ConsumerOk s s.consumer

variable {N} {start : ℕ} {s s' : State α}

section

variable (hN : ∃ k ≤ 31, N = 2 ^ k)

include hN

private theorem capacity_le : N ≤ 2 ^ 31 := by
  obtain ⟨k, hk, rfl⟩ := hN
  exact Nat.pow_le_pow_right (by decide) hk

private theorem wrap_mod (x : ℕ) : x % 2 ^ 32 % N = x % N := by
  obtain ⟨k, hk, rfl⟩ := hN
  exact Nat.mod_mod_of_dvd x (Nat.pow_dvd_pow 2 (by omega))

private theorem slot_ne {k j : ℕ} (hlt : k < j) (hdist : j < k + N) : k % N ≠ j % N := by
  intro heq
  have hdvd : N ∣ j - k := (Nat.modEq_iff_dvd' hlt.le).mp heq
  have := Nat.le_of_dvd (by omega) hdvd
  omega

private theorem Inv.tail_slot (h : Inv N start s) :
    s.tail.toNat % N = (start + s.pushed.length) % N := by
  rw [h.tail_eq, wrap_mod hN]

private theorem Inv.head_slot (h : Inv N start s) :
    s.head.toNat % N = (start + s.popped.length) % N := by
  rw [h.head_eq, wrap_mod hN]

private theorem Inv.used_eq (h : Inv N start s) :
    (s.tail - s.head).toNat = s.pushed.length - s.popped.length := by
  have hle := capacity_le hN
  have htail := h.tail_eq
  have hhead := h.head_eq
  have hlen := h.length_le
  have hpre := h.isPrefix.length_le
  rw [UInt32.toNat_sub]
  omega

private theorem Inv.empty_iff (h : Inv N start s) :
    s.head = s.tail ↔ s.popped.length = s.pushed.length := by
  have hle := capacity_le hN
  have htail := h.tail_eq
  have hhead := h.head_eq
  have hlen := h.length_le
  have hpre := h.isPrefix.length_le
  rw [← UInt32.toNat_inj]
  omega

end

private theorem toNat_succ {c : UInt32} {n : ℕ} (h : c.toNat = (start + n) % 2 ^ 32) :
    (c + 1).toNat = (start + (n + 1)) % 2 ^ 32 := by
  rw [UInt32.toNat_add, h]
  simp only [UInt32.reduceToNat]
  omega

private theorem Inv.setProducer (h : Inv N start s) {p : Producer α}
    (hp : ProducerOk N s (s.pushed.length - s.popped.length) p) :
    Inv N start { s with producer := p } := by
  refine ⟨h.tail_eq, h.head_eq, h.length_le, h.isPrefix, h.slots, ?_, ?_⟩
  · cases p <;> exact hp
  · have hc := h.consumer
    revert hc
    cases s.consumer <;> exact id

private theorem Inv.setConsumer (h : Inv N start s) {c : Consumer α} (hc : ConsumerOk s c) :
    Inv N start { s with consumer := c } := by
  refine ⟨h.tail_eq, h.head_eq, h.length_le, h.isPrefix, h.slots, ?_, ?_⟩
  · have hp := h.producer
    revert hp
    cases s.producer <;> exact id
  · cases c <;> exact hc

private theorem Inv.write (hN : ∃ k ≤ 31, N = 2 ^ k) (h : Inv N start s) {v : α} {tail : UInt32}
    (hp : s.producer = .ready v tail) :
    Inv N start { s with
      entries := Function.update s.entries (tail.toNat % N) v
      producer := .written v tail } := by
  have hok := h.producer
  rw [hp] at hok
  obtain ⟨rfl, hroom⟩ := hok
  have hpre := h.isPrefix.length_le
  refine ⟨h.tail_eq, h.head_eq, h.length_le, h.isPrefix, fun k w hk hw => ?_, ?_, ?_⟩
  · have hk : s.popped.length ≤ k := hk
    have hw : s.pushed[k]? = some w := hw
    obtain ⟨hlt, -⟩ := List.getElem?_eq_some_iff.mp hw
    have hne : (start + k) % N ≠ s.tail.toNat % N := by
      rw [h.tail_slot hN]
      exact slot_ne hN (by omega) (by omega)
    change Function.update s.entries (s.tail.toNat % N) v ((start + k) % N) = w
    rw [Function.update_of_ne hne]
    exact h.slots k w hk hw
  · exact ⟨rfl, hroom, Function.update_self ..⟩
  · have hc := h.consumer
    revert hc
    cases s.consumer <;> exact id

private theorem Inv.storeTail (hN : ∃ k ≤ 31, N = 2 ^ k) (h : Inv N start s) {v : α}
    {tail : UInt32} (hp : s.producer = .written v tail) :
    Inv N start { s with tail := tail + 1, producer := .idle, pushed := s.pushed ++ [v] } := by
  have hok := h.producer
  rw [hp] at hok
  obtain ⟨rfl, hroom, hslot⟩ := hok
  have hpre := h.isPrefix.length_le
  have hlen : (s.pushed ++ [v]).length = s.pushed.length + 1 := by simp
  refine ⟨?_, h.head_eq, ?_, h.isPrefix.trans (List.prefix_append _ _), fun k w hk hw => ?_,
    trivial, ?_⟩
  · change (s.tail + 1).toNat = _
    rw [hlen]
    exact toNat_succ h.tail_eq
  · change (s.pushed ++ [v]).length ≤ s.popped.length + N
    omega
  · have hw : (s.pushed ++ [v])[k]? = some w := hw
    rcases Nat.lt_or_ge k s.pushed.length with hlt | hge
    · rw [List.getElem?_append_left hlt] at hw
      exact h.slots k w hk hw
    · obtain ⟨hlt, -⟩ := List.getElem?_eq_some_iff.mp hw
      have hk' : k = s.pushed.length := by omega
      subst hk'
      rw [List.getElem?_concat_length] at hw
      cases hw
      rw [← h.tail_slot hN]
      exact hslot
  · have hc := h.consumer
    revert hc
    cases s.consumer with
    | idle => exact id
    | loadedHead head => exact id
    | ready head => exact fun hc => ⟨hc.1, hc.2.trans_le (by simp)⟩
    | taken w head =>
      rintro ⟨hhead, hget⟩
      obtain ⟨hlt, -⟩ := List.getElem?_eq_some_iff.mp hget
      refine ⟨hhead, ?_⟩
      change (s.pushed ++ [v])[s.popped.length]? = some w
      rw [List.getElem?_append_left hlt, hget]

private theorem Inv.read (hN : ∃ k ≤ 31, N = 2 ^ k) (h : Inv N start s) {head : UInt32}
    (hc : s.consumer = .ready head) :
    Inv N start { s with consumer := .taken (s.entries (head.toNat % N)) head } := by
  have hok := h.consumer
  rw [hc] at hok
  obtain ⟨rfl, hlt⟩ := hok
  refine h.setConsumer ⟨rfl, ?_⟩
  have hget := List.getElem?_eq_getElem hlt
  rw [hget, h.head_slot hN, h.slots _ _ le_rfl hget]

private theorem Inv.storeHead (h : Inv N start s) {v : α} {head : UInt32}
    (hc : s.consumer = .taken v head) :
    Inv N start { s with head := head + 1, consumer := .idle, popped := s.popped ++ [v] } := by
  have hok := h.consumer
  rw [hc] at hok
  obtain ⟨rfl, hget⟩ := hok
  obtain ⟨hlt, hv⟩ := List.getElem?_eq_some_iff.mp hget
  have hlen : (s.popped ++ [v]).length = s.popped.length + 1 := by simp
  have hle := h.length_le
  refine ⟨h.tail_eq, ?_, ?_, ?_, fun k w hk hw => ?_, ?_, trivial⟩
  · change (s.head + 1).toNat = _
    rw [hlen]
    exact toNat_succ h.head_eq
  · change s.pushed.length ≤ (s.popped ++ [v]).length + N
    omega
  · change s.popped ++ [v] <+: s.pushed
    rw [List.prefix_iff_eq_take.mp h.isPrefix, ← hv, List.take_append_getElem hlt]
    exact List.take_prefix _ _
  · refine h.slots k w ?_ hw
    change (s.popped ++ [v]).length ≤ k at hk
    omega
  · have hp := h.producer
    revert hp
    cases s.producer with
    | idle => exact id
    | loadedTail w tail => exact id
    | ready w tail =>
      rintro ⟨htail, hroom⟩
      refine ⟨htail, ?_⟩
      change s.pushed.length - (s.popped ++ [v]).length < N
      omega
    | written w tail =>
      rintro ⟨htail, hroom, hslot⟩
      refine ⟨htail, ?_, hslot⟩
      change s.pushed.length - (s.popped ++ [v]).length < N
      omega

/-- Every step keeps the invariant. -/
theorem Inv.step (hN : ∃ k ≤ 31, N = 2 ^ k) (h : Inv N start s) (hstep : Step N s s') :
    Inv N start s' := by
  cases hstep with
  | pushTail v hp => exact h.setProducer rfl
  | pushHead hp hroom =>
    have hok := h.producer
    rw [hp] at hok
    have htail : _ = s.tail := hok
    refine h.setProducer ⟨htail, ?_⟩
    rw [htail, h.used_eq hN] at hroom
    have := h.length_le
    omega
  | pushFull hp hfull => exact h.setProducer trivial
  | pushWrite hp => exact h.write hN hp
  | pushStore hp => exact h.storeTail hN hp
  | popHead hc => exact h.setConsumer rfl
  | popTail hc hne =>
    have hok := h.consumer
    rw [hc] at hok
    have hhead : _ = s.head := hok
    refine h.setConsumer ⟨hhead, ?_⟩
    rw [hhead, Ne, h.empty_iff hN] at hne
    have := h.isPrefix.length_le
    omega
  | popEmpty hc heq => exact h.setConsumer trivial
  | popRead hc => exact h.read hN hc
  | popStore hc => exact h.storeHead hc

/-- The invariant holds in every reachable state. -/
theorem Inv.of_reaches (hN : ∃ k ≤ 31, N = 2 ^ k)
    (h : Transition.Reaches Init (Step N) s) : ∃ start, Inv N start s := by
  refine Transition.Reaches.invariant (P := fun s : State α => ∃ start, Inv N start s) ?_ ?_ h
  · rintro s ⟨hcursor, hp, hc, hpushed, hpopped⟩
    have hlt := s.tail.toNat_lt
    refine ⟨s.tail.toNat, ?_, ?_, ?_, ?_, ?_, ?_, ?_⟩
    · rw [hpushed, List.length_nil, Nat.add_zero, Nat.mod_eq_of_lt hlt]
    · rw [hcursor, hpopped, List.length_nil, Nat.add_zero, Nat.mod_eq_of_lt hlt]
    · simp [hpushed]
    · simp [hpushed, hpopped]
    · simp [hpushed]
    · rw [hp]
      trivial
    · rw [hc]
      trivial
  · rintro s s' ⟨start, hinv⟩ hstep
    exact ⟨start, hinv.step hN hstep⟩

/-- The ring is a queue: what was popped is the first part of what was pushed and the rest
is in the slots from the head on. A push fails only when `N` elements are in the ring as it
reads the head, a pop only when none is as it reads the tail, and no slot that is yet to be
read is written. -/
theorem ring_is_fifo (hN : ∃ k ≤ 31, N = 2 ^ k) (h : Transition.Reaches Init (Step N) s) :
    s.popped <+: s.pushed ∧
    (∀ j v, s.pushed[s.popped.length + j]? = some v →
      s.entries ((s.head + UInt32.ofNat j).toNat % N) = v) ∧
    (∀ v tail, s.producer = .loadedTail v tail → (tail - s.head).toNat = N →
      s.pushed.length = s.popped.length + N) ∧
    (∀ head, s.consumer = .loadedHead head → head = s.tail →
      s.pushed.length = s.popped.length) ∧
    ∀ v tail, s.producer = .ready v tail →
      (∀ j < s.pushed.length - s.popped.length,
        (s.head + UInt32.ofNat j).toNat % N ≠ tail.toNat % N) ∧
      ∀ head, s.consumer = .ready head → head.toNat % N ≠ tail.toNat % N := by
  obtain ⟨start, hinv⟩ := Inv.of_reaches hN h
  have hslot : ∀ j, (s.head + UInt32.ofNat j).toNat % N = (start + (s.popped.length + j)) % N := by
    intro j
    have hsum : (s.head + UInt32.ofNat j).toNat = (start + (s.popped.length + j)) % 2 ^ 32 := by
      rw [UInt32.toNat_add, UInt32.toNat_ofNat', hinv.head_eq]
      omega
    rw [hsum, wrap_mod hN]
  have hle := hinv.length_le
  have hpre := hinv.isPrefix.length_le
  refine ⟨hinv.isPrefix, fun j v hv => ?_, fun v tail hp hfull => ?_, fun head hc heq => ?_,
    fun v tail hp => ?_⟩
  · rw [hslot]
    exact hinv.slots _ v (Nat.le_add_right _ _) hv
  · have hok := hinv.producer
    rw [hp] at hok
    have htail : tail = s.tail := hok
    rw [htail, hinv.used_eq hN] at hfull
    omega
  · have hok := hinv.consumer
    rw [hc] at hok
    have hhead : head = s.head := hok
    rw [hhead, hinv.empty_iff hN] at heq
    exact heq.symm
  · have hok := hinv.producer
    rw [hp] at hok
    obtain ⟨rfl, hroom⟩ := hok
    have hapart : ∀ j < s.pushed.length - s.popped.length,
        (s.head + UInt32.ofNat j).toNat % N ≠ s.tail.toNat % N := by
      intro j hj
      rw [hslot, hinv.tail_slot hN]
      exact slot_ne hN (by omega) (by omega)
    refine ⟨hapart, fun head hc => ?_⟩
    have hokc := hinv.consumer
    rw [hc] at hokc
    obtain ⟨rfl, hlt⟩ := hokc
    have := hapart 0 (by omega)
    simpa using this

/-- An empty ring whose cursors are about to wrap. -/
def lastCursor : State ℕ := ⟨fun _ => 0, 4294967295, 4294967295, .idle, .idle, [], []⟩

/-- Two values are pushed and one is popped while the cursors wrap: the first one comes out, and
the second is in the slot at the head. -/
theorem wrapped_ring_is_fifo : ∃ s : State ℕ, Transition.Reaches Init (Step 2) s ∧
    s.pushed = [5, 6] ∧ s.popped = [5] ∧ s.head = 0 ∧ s.tail = 1 ∧ s.popped <+: s.pushed ∧
    ∀ j v, s.pushed[s.popped.length + j]? = some v →
      s.entries ((s.head + UInt32.ofNat j).toNat % 2) = v := by
  have h₀ : Transition.Reaches Init (Step 2) lastCursor := .init ⟨rfl, rfl, rfl, rfl, rfl⟩
  have hfive := h₀.step (.pushTail 5 rfl) |>.step (.pushHead rfl (by decide))
    |>.step (.pushWrite rfl) |>.step (.pushStore rfl)
  have hsix := hfive.step (.pushTail 6 rfl) |>.step (.pushHead rfl (by decide))
    |>.step (.pushWrite rfl) |>.step (.pushStore rfl)
  have hpop := hsix.step (.popHead rfl) |>.step (.popTail rfl (by decide))
    |>.step (.popRead rfl) |>.step (.popStore rfl)
  obtain ⟨hpopped, hslots, -⟩ := ring_is_fifo ⟨1, by decide, by decide⟩ hpop
  exact ⟨_, hpop, rfl, rfl, rfl, rfl, hpopped, hslots⟩

end Spsc

end Yggdrasil
