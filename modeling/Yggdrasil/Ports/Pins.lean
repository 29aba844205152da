import Yggdrasil.Lib.Transition
import Yggdrasil.Ports.Port

/-!
# Pinned buffers

The buffer table and the set of pinned buffers have a lock each. `buf_take` looks into the
set, releases its lock and then removes from the table; `buf_pin` looks into the table,
releases its lock and then inserts into the set. What a core does under one lock is one
step. Only `buf_pin` and the takes of the drivers run under the lock on the ports.
-/

namespace Yggdrasil.Pins

/-- A buffer: the address of its storage, and its bytes. -/
structure Buffer where
  /-- Physical address of the storage. -/
  addr : ℕ
  /-- The bytes. -/
  data : List UInt8
  deriving DecidableEq, Repr

/-- Overwrite a part in place; out of bounds nothing is written. -/
def Buffer.write (off : ℕ) (data : List UInt8) (b : Buffer) : Buffer :=
  if off + data.length ≤ b.data.length then { b with data := overwrite off data b.data } else b

/-- Where a core stands between two locks. -/
inductive Loc where
  /-- Elsewhere. -/
  | idle
  /-- `buf_create` has a number. -/
  | creating (id : ℕ) (buf : Buffer)
  /-- `buf_take` has found the buffer not pinned. -/
  | taking (id : ℕ)
  /-- `buf_pin` has the address and the length. -/
  | pinning (id addr len : ℕ)
  deriving DecidableEq, Repr

/-- What `buf_pin` returned for the device. -/
structure Pin where
  /-- The buffer. -/
  id : ℕ
  /-- Its address. -/
  addr : ℕ
  /-- Its length. -/
  len : ℕ
  deriving DecidableEq, Repr

/-- `n` cores and the buffers they share. -/
structure Machine (n : ℕ) where
  /-- The cores. -/
  core : Fin n → Loc
  /-- The core that holds the lock on the ports. -/
  ports : Option (Fin n)
  /-- The buffer table. -/
  buffers : ℕ → Option Buffer
  /-- The pinned buffers. -/
  pinned : ℕ → Bool
  /-- The next number of a buffer. -/
  next : ℕ
  /-- History: what devices were told. -/
  handed : List Pin

/-- What may happen: a core goes on in one of the buffer functions. -/
inductive Event (n : ℕ) where
  /-- `submit` takes the lock on the ports. -/
  | lock (c : Fin n)
  /-- `submit` releases it. -/
  | unlock (c : Fin n)
  /-- `buf_create` takes a number. -/
  | createTake (c : Fin n) (buf : Buffer)
  /-- `buf_create` inserts the buffer. -/
  | createInsert (c : Fin n)
  /-- `buf_take` looks into the set of pinned buffers. -/
  | takeCheck (c : Fin n) (id : ℕ)
  /-- `buf_take` removes the buffer from the table. -/
  | takeRemove (c : Fin n)
  /-- `buf_write`. -/
  | write (c : Fin n) (id off : ℕ) (data : List UInt8)
  /-- `buf_read` or `buf_get`. -/
  | read (c : Fin n) (id : ℕ)
  /-- `buf_pin` looks up the buffer. -/
  | pinRead (c : Fin n) (id : ℕ)
  /-- `buf_pin` inserts into the set of pinned buffers and returns. -/
  | pinInsert (c : Fin n)
  deriving Repr

namespace Machine

variable {n : ℕ}

/-- Move a core. -/
def setCore (c : Fin n) (loc : Loc) (s : Machine n) : Machine n :=
  { s with core := Function.update s.core c loc }

/-- What an event does, if it can happen. -/
def step (s : Machine n) : Event n → Option (Machine n)
  | .lock c => if s.ports = none then some { s with ports := some c } else none
  | .unlock c =>
    if s.ports = some c ∧ s.core c = .idle then some { s with ports := none } else none
  | .createTake c buf =>
    match s.core c with
    | .idle => some ({ s with next := s.next + 1 }.setCore c (.creating s.next buf))
    | _ => none
  | .createInsert c =>
    match s.core c with
    | .creating id buf =>
      some ({ s with buffers := Function.update s.buffers id (some buf) }.setCore c .idle)
    | _ => none
  | .takeCheck c id =>
    match s.core c with
    | .idle => if s.pinned id then some s else some (s.setCore c (.taking id))
    | _ => none
  | .takeRemove c =>
    match s.core c with
    | .taking id =>
      some ({ s with buffers := Function.update s.buffers id none }.setCore c .idle)
    | _ => none
  | .write c id off data =>
    match s.core c with
    | .idle =>
      some { s with buffers := Function.update s.buffers id ((s.buffers id).map (.write off data)) }
    | _ => none
  | .read c _ =>
    match s.core c with
    | .idle => some s
    | _ => none
  | .pinRead c id =>
    match s.core c with
    | .idle =>
      if s.ports = some c then
        match s.buffers id with
        | some buf => some (s.setCore c (.pinning id buf.addr buf.data.length))
        | none => some s
      else none
    | _ => none
  | .pinInsert c =>
    match s.core c with
    | .pinning id addr len =>
      some ({ s with
        pinned := Function.update s.pinned id true
        handed := ⟨id, addr, len⟩ :: s.handed }.setCore c .idle)
    | _ => none

/-- The buffer table without the cores. -/
def table (s : Machine n) : Yggdrasil.Buffers ℕ Buffer := ⟨s.buffers, s.pinned, s.next⟩

end Machine

variable {n : ℕ} {s s' : Machine n}

/-- What a core does between two locks of its own without others in between is what the buffer
table does in one go. -/
theorem table_undisturbed {c : Fin n} (hidle : s.core c = .idle) :
    (∀ buf, ∃ s', Transition.run Machine.step [.createTake c buf, .createInsert c] s = some s' ∧
      s'.table = (s.table.create buf).2) ∧
    (∀ id, ∃ s', Transition.run Machine.step
        (.takeCheck c id :: if s.pinned id then [] else [.takeRemove c]) s = some s' ∧
      s'.table = (s.table.take id).2) ∧
    ∀ id, s.ports = some c → ∃ s', Transition.run Machine.step
        (.pinRead c id :: if (s.buffers id).isSome then [.pinInsert c] else []) s = some s' ∧
      s'.table = (s.table.pin (·.data.length) id).2 := by
  refine ⟨fun buf => ?_, fun id => ?_, fun id hports => ?_⟩
  · simp [Transition.run, Machine.step, hidle, Machine.setCore, Machine.table, Buffers.create]
  · cases hpin : s.pinned id <;>
      simp [Transition.run, Machine.step, hidle, Machine.setCore, Machine.table, Buffers.take, hpin]
  · cases hbuf : s.buffers id <;>
      simp [Transition.run, Machine.step, hidle, hports, Machine.setCore, Machine.table,
        Buffers.pin, hbuf]

/-- Boot: no buffers. -/
def Init (s : Machine n) : Prop :=
  (∀ c, s.core c = .idle) ∧ s.ports = none ∧ (∀ id, s.buffers id = none) ∧
    (∀ id, s.pinned id = false) ∧ s.handed = []

/-- A step by an event that meets a condition on the state before it. -/
def StepIf (ok : Machine n → Event n → Prop) (s s' : Machine n) : Prop :=
  ∃ e, ok s e ∧ s.step e = some s'

/-- The device still has what it was told about: the buffer is in the table, with the same
storage and length. -/
def Machine.Keeps (s : Machine n) (p : Pin) : Prop :=
  ∃ buf, s.buffers p.id = some buf ∧ buf.addr = p.addr ∧ buf.data.length = p.len

/-- A take and a pin of one buffer do not overlap: `buf_take` does not look for a pin while
`buf_pin` is about to make it, and `buf_pin` does not look up a buffer while `buf_take` is
about to remove it. -/
def NoOverlap (s : Machine n) : Event n → Prop
  | .takeCheck _ id => ∀ c addr len, s.core c ≠ .pinning id addr len
  | .pinRead _ id => ∀ c, s.core c ≠ .taking id
  | _ => True

/-- The invariant of runs without such overlaps. -/
structure Inv (s : Machine n) : Prop where
  /-- What was handed out is pinned and kept. -/
  handed : ∀ p ∈ s.handed, s.pinned p.id = true ∧ s.Keeps p
  /-- Nobody is about to take a pinned buffer. -/
  pinned : ∀ id, s.pinned id = true → ∀ c, s.core c ≠ .taking id
  /-- A buffer about to be pinned is kept and nobody is about to take it. -/
  pinning : ∀ c id addr len, s.core c = .pinning id addr len →
    s.Keeps ⟨id, addr, len⟩ ∧ ∀ c', s.core c' ≠ .taking id
  /-- Numbers from `next` on are not in use. -/
  fresh : ∀ id, s.next ≤ id → s.buffers id = none
  /-- A buffer about to be inserted has a number of its own. -/
  creating : ∀ c id buf, s.core c = .creating id buf → id < s.next ∧ s.buffers id = none ∧
    ∀ c' buf', c' ≠ c → s.core c' ≠ .creating id buf'

private theorem core_update {s : Machine n} {c c' : Fin n} {loc loc' : Loc}
    (h : Function.update s.core c loc c' = loc') : (c' = c ∧ loc = loc') ∨ s.core c' = loc' := by
  by_cases hc : c' = c
  · subst hc
    rw [Function.update_self] at h
    exact .inl ⟨rfl, h⟩
  · rw [Function.update_of_ne hc] at h
    exact .inr h

/-- A buffer that is not touched is kept. -/
private theorem keeps_of_eq {p : Pin} (h : s.Keeps p) (heq : s'.buffers p.id = s.buffers p.id) :
    s'.Keeps p := by
  obtain ⟨buf, hbuf, haddr, hlen⟩ := h
  exact ⟨buf, heq.trans hbuf, haddr, hlen⟩

/-- A core moves while the buffers stay. -/
private theorem Inv.move (h : Inv s) (c : Fin n) {loc : Loc}
    (htaking : ∀ id, loc = .taking id →
      s.pinned id = false ∧ ∀ c addr len, s.core c ≠ .pinning id addr len)
    (hpinning : ∀ id addr len, loc = .pinning id addr len →
      s.Keeps ⟨id, addr, len⟩ ∧ ∀ c, s.core c ≠ .taking id)
    (hcreating : ∀ id buf, loc = .creating id buf →
      id < s.next ∧ s.buffers id = none ∧ ∀ c buf', s.core c ≠ .creating id buf') :
    Inv (s.setCore c loc) := by
  refine ⟨h.handed, fun id hid c₁ htake => ?_, fun c₁ id addr len hpin => ?_, h.fresh,
    fun c₁ id buf hcreate => ?_⟩
  · rcases core_update htake with ⟨-, heq⟩ | htake
    · cases (htaking id heq).1.symm.trans hid
    · exact h.pinned id hid c₁ htake
  · rcases core_update hpin with ⟨rfl, heq⟩ | hpin
    · obtain ⟨hkept, hnot⟩ := hpinning id addr len heq
      refine ⟨hkept, fun c₂ htake => ?_⟩
      rcases core_update htake with ⟨-, heq'⟩ | htake
      · cases heq.symm.trans heq'
      · exact hnot c₂ htake
    · obtain ⟨hkept, hnot⟩ := h.pinning c₁ id addr len hpin
      refine ⟨hkept, fun c₂ htake => ?_⟩
      rcases core_update htake with ⟨-, heq⟩ | htake
      · exact (htaking id heq).2 c₁ addr len hpin
      · exact hnot c₂ htake
  · rcases core_update hcreate with ⟨rfl, heq⟩ | hcreate
    · obtain ⟨hlt, hnone, hother⟩ := hcreating id buf heq
      refine ⟨hlt, hnone, fun c₂ buf' hne heq' => ?_⟩
      rcases core_update heq' with ⟨rfl, -⟩ | heq'
      · exact hne rfl
      · exact hother c₂ buf' heq'
    · obtain ⟨hlt, hnone, hother⟩ := h.creating c₁ id buf hcreate
      refine ⟨hlt, hnone, fun c₂ buf' hne heq' => ?_⟩
      rcases core_update heq' with ⟨-, heq⟩ | heq'
      · exact (hcreating id buf' heq).2.2 c₁ buf hcreate
      · exact hother c₂ buf' hne heq'

/-- A core returns. -/
private theorem Inv.setIdle (h : Inv s) (c : Fin n) : Inv (s.setCore c .idle) :=
  h.move c (by simp) (by simp) (by simp)

/-- The invariant does not depend on who holds the lock on the ports. -/
private theorem Inv.setPorts (h : Inv s) (ports : Option (Fin n)) :
    Inv { s with ports := ports } :=
  ⟨h.handed, h.pinned, h.pinning, h.fresh, h.creating⟩

private theorem length_write (off : ℕ) (data : List UInt8) (b : Buffer) :
    (b.write off data).data.length = b.data.length := by
  unfold Buffer.write
  split
  · exact length_overwrite ‹_›
  · rfl

private theorem addr_write (off : ℕ) (data : List UInt8) (b : Buffer) :
    (b.write off data).addr = b.addr := by
  unfold Buffer.write
  split <;> rfl

private theorem Inv.write (h : Inv s) (id off : ℕ) (data : List UInt8) :
    Inv { s with
      buffers := Function.update s.buffers id ((s.buffers id).map (.write off data)) } := by
  have hkeeps : ∀ p, s.Keeps p → Machine.Keeps { s with
      buffers := Function.update s.buffers id ((s.buffers id).map (.write off data)) } p := by
    rintro p ⟨buf, hbuf, haddr, hlen⟩
    by_cases hid : p.id = id
    · refine ⟨buf.write off data, ?_, (addr_write ..).trans haddr, (length_write ..).trans hlen⟩
      change Function.update s.buffers id _ p.id = _
      rw [hid, Function.update_self, ← hid, hbuf]
      rfl
    · exact ⟨buf, (Function.update_of_ne hid _ _).trans hbuf, haddr, hlen⟩
  have hnone : ∀ id', s.buffers id' = none →
      Function.update s.buffers id ((s.buffers id).map (.write off data)) id' = none := by
    intro id' hid'
    by_cases heq : id' = id
    · subst heq
      rw [Function.update_self, hid']
      rfl
    · rw [Function.update_of_ne heq, hid']
  refine ⟨fun p hp => ?_, h.pinned, fun c id' addr len hpin => ?_,
    fun id' hid' => hnone id' (h.fresh id' hid'), fun c id' buf hcreate => ?_⟩
  · obtain ⟨hpinned, hkept⟩ := h.handed p hp
    exact ⟨hpinned, hkeeps p hkept⟩
  · obtain ⟨hkept, hnot⟩ := h.pinning c id' addr len hpin
    exact ⟨hkeeps _ hkept, hnot⟩
  · obtain ⟨hlt, hid', hother⟩ := h.creating c id' buf hcreate
    exact ⟨hlt, hnone id' hid', hother⟩

private theorem Inv.createTake (h : Inv s) (c : Fin n) (buf : Buffer) :
    Inv ({ s with next := s.next + 1 }.setCore c (.creating s.next buf)) := by
  have hnext : Inv { s with next := s.next + 1 } := by
    refine ⟨h.handed, h.pinned, h.pinning, fun id hid => h.fresh id (Nat.le_of_succ_le hid),
      fun c' id buf' hcreate => ?_⟩
    obtain ⟨hlt, hrest⟩ := h.creating c' id buf' hcreate
    exact ⟨Nat.lt_succ_of_lt hlt, hrest⟩
  refine hnext.move c (by simp) (by simp) fun id buf' heq => ?_
  cases heq
  refine ⟨Nat.lt_succ_self _, h.fresh _ (Nat.le_refl _), fun c' buf' hcreate => ?_⟩
  exact Nat.lt_irrefl _ (h.creating c' _ _ hcreate).1

private theorem Inv.insert (h : Inv s) {id : ℕ} (buf : Buffer) (hlt : id < s.next)
    (hnone : s.buffers id = none) (hother : ∀ c buf', s.core c ≠ .creating id buf') :
    Inv { s with buffers := Function.update s.buffers id (some buf) } := by
  have hkeeps : ∀ p : Pin, s.Keeps p →
      Machine.Keeps { s with buffers := Function.update s.buffers id (some buf) } p := by
    intro p hp
    refine keeps_of_eq hp (Function.update_of_ne ?_ _ _)
    rintro rfl
    obtain ⟨buf', hbuf', -⟩ := hp
    cases hnone.symm.trans hbuf'
  refine ⟨fun p hp => ?_, h.pinned, fun c id' addr len hpin => ?_, fun id' hid' => ?_,
    fun c id' buf' hcreate => ?_⟩
  · obtain ⟨hpinned, hkept⟩ := h.handed p hp
    exact ⟨hpinned, hkeeps p hkept⟩
  · obtain ⟨hkept, hnot⟩ := h.pinning c id' addr len hpin
    exact ⟨hkeeps _ hkept, hnot⟩
  · have hid' : s.next ≤ id' := hid'
    exact (Function.update_of_ne (by omega) _ _).trans (h.fresh id' hid')
  · obtain ⟨hlt', hnone', hother'⟩ := h.creating c id' buf' hcreate
    have hne : id' ≠ id := by
      rintro rfl
      exact hother c buf' hcreate
    exact ⟨hlt', (Function.update_of_ne hne _ _).trans hnone', hother'⟩

private theorem Inv.createInsert (h : Inv s) {c : Fin n} {id : ℕ} {buf : Buffer}
    (hc : s.core c = .creating id buf) :
    Inv ({ s with buffers := Function.update s.buffers id (some buf) }.setCore c .idle) := by
  obtain ⟨hlt, hnone, hother⟩ := h.creating c id buf hc
  refine (h.setIdle c).insert buf hlt hnone fun c' buf' hcreate => ?_
  by_cases hcc : c' = c
  · subst hcc
    cases (Function.update_self ..).symm.trans hcreate
  · exact hother c' buf' hcc ((Function.update_of_ne hcc _ _).symm.trans hcreate)

private theorem Inv.takeRemove (h : Inv s) {c : Fin n} {id : ℕ} (hc : s.core c = .taking id) :
    Inv { s with buffers := Function.update s.buffers id none } := by
  have hnone : ∀ id', s.buffers id' = none → Function.update s.buffers id none id' = none := by
    intro id' hid'
    by_cases heq : id' = id
    · rw [heq, Function.update_self]
    · rw [Function.update_of_ne heq, hid']
  refine ⟨fun p hp => ?_, h.pinned, fun c' id' addr len hpin => ?_,
    fun id' hid' => hnone id' (h.fresh id' hid'), fun c' id' buf hcreate => ?_⟩
  · obtain ⟨hpinned, hkept⟩ := h.handed p hp
    refine ⟨hpinned, keeps_of_eq hkept (Function.update_of_ne ?_ _ _)⟩
    rintro rfl
    exact h.pinned p.id hpinned c hc
  · obtain ⟨hkept, hnot⟩ := h.pinning c' id' addr len hpin
    refine ⟨keeps_of_eq hkept (Function.update_of_ne ?_ _ _), hnot⟩
    rintro rfl
    exact hnot c hc
  · obtain ⟨hlt, hid', hother⟩ := h.creating c' id' buf hcreate
    exact ⟨hlt, hnone id' hid', hother⟩

private theorem Inv.pinInsert (h : Inv s) {c : Fin n} {id addr len : ℕ}
    (hc : s.core c = .pinning id addr len) :
    Inv { s with
      pinned := Function.update s.pinned id true
      handed := ⟨id, addr, len⟩ :: s.handed } := by
  obtain ⟨hkept, hnot⟩ := h.pinning c id addr len hc
  refine ⟨fun p hp => ?_, fun id' hid' c' htake => ?_, h.pinning, h.fresh, h.creating⟩
  · rcases List.mem_cons.mp hp with rfl | hp
    · exact ⟨Function.update_self .., hkept⟩
    · obtain ⟨hpinned, hkept'⟩ := h.handed p hp
      refine ⟨?_, hkept'⟩
      by_cases heq : p.id = id
      · change Function.update s.pinned id true p.id = true
        rw [heq, Function.update_self]
      · exact (Function.update_of_ne heq _ _).trans hpinned
  · by_cases heq : id' = id
    · subst heq
      exact hnot c' htake
    · exact h.pinned id' ((Function.update_of_ne heq _ _).symm.trans hid') c' htake

/-- A step that meets the condition keeps the invariant. -/
theorem Inv.step (h : Inv s) {e : Event n} (hok : NoOverlap s e) (hstep : s.step e = some s') :
    Inv s' := by
  cases e with
  | lock c | unlock c =>
    simp only [Machine.step] at hstep
    split at hstep
    · cases hstep
      exact h.setPorts _
    · cases hstep
  | createTake c buf =>
    simp only [Machine.step] at hstep
    split at hstep
    · cases hstep
      exact h.createTake c buf
    · cases hstep
  | createInsert c =>
    simp only [Machine.step] at hstep
    split at hstep
    · next hc =>
      cases hstep
      exact h.createInsert hc
    · cases hstep
  | takeCheck c id =>
    simp only [Machine.step] at hstep
    split at hstep
    · split at hstep
      · cases hstep
        exact h
      · next hfree =>
        cases hstep
        refine h.move c (fun id' heq => ?_) (by simp) (by simp)
        cases heq
        exact ⟨by simpa using hfree, hok⟩
    · cases hstep
  | takeRemove c =>
    simp only [Machine.step] at hstep
    split at hstep
    · next hc =>
      cases hstep
      exact (h.takeRemove hc).setIdle c
    · cases hstep
  | write c id off data =>
    simp only [Machine.step] at hstep
    split at hstep
    · cases hstep
      exact h.write id off data
    · cases hstep
  | read c id =>
    simp only [Machine.step] at hstep
    split at hstep
    · cases hstep
      exact h
    · cases hstep
  | pinRead c id =>
    simp only [Machine.step] at hstep
    split at hstep
    · split at hstep
      · split at hstep
        · next hbuf =>
          cases hstep
          refine h.move c (by simp) (fun id' addr len heq => ?_) (by simp)
          cases heq
          exact ⟨⟨_, hbuf, rfl, rfl⟩, hok⟩
        · cases hstep
          exact h
      · cases hstep
    · cases hstep
  | pinInsert c =>
    simp only [Machine.step] at hstep
    split at hstep
    · next hc =>
      cases hstep
      exact (h.pinInsert hc).setIdle c
    · cases hstep

/-- In a run where no take of a buffer overlaps a pin of it, every buffer whose address a
device was told stays in the table with the same storage and length, and nobody is about to
remove it. -/
theorem pinned_buffers_stay (h : Transition.Reaches Init (StepIf NoOverlap) s) :
    ∀ p ∈ s.handed, s.Keeps p ∧ ∀ c, s.core c ≠ .taking p.id := by
  have hinv : Inv s := by
    refine Transition.Reaches.invariant (P := Inv) ?_ ?_ h
    · rintro s ⟨hcore, -, hbuffers, hpinned, hhanded⟩
      refine ⟨by simp [hhanded], by simp [hcore], ?_, fun id _ => hbuffers id, ?_⟩
      · intro c id addr len hc
        cases (hcore c).symm.trans hc
      · intro c id buf hc
        cases (hcore c).symm.trans hc
    · rintro s s' hs ⟨e, hok, hstep⟩
      exact hs.step hok hstep
  intro p hp
  obtain ⟨hpinned, hkept⟩ := hinv.handed p hp
  exact ⟨hkept, hinv.pinned p.id hpinned⟩

/-- Boot on two cores. -/
def twoCores : Machine 2 := ⟨fun _ => .idle, none, fun _ => none, fun _ => false, 1, []⟩

/-- BUF_TO_BIN on core 1 looks for a pin before core 0 makes it, and removes the buffer after
the device was told its address. -/
def racing : List (Event 2) :=
  [.createTake 0 ⟨4096, [0, 0]⟩, .createInsert 0, .lock 0, .takeCheck 1 1, .pinRead 0 1,
    .pinInsert 0, .takeRemove 1]

private theorem twoCores_init : Init twoCores :=
  ⟨fun _ => rfl, rfl, fun _ => rfl, fun _ => rfl, rfl⟩

/-- A buffer is freed although a device was told its address. -/
theorem pinned_buffer_taken : ∃ s : Machine 2,
    Transition.Reaches Init (StepIf fun _ _ => True) s ∧ s.handed = [⟨1, 4096, 2⟩] ∧
      s.buffers 1 = none := by
  have hrun : ∃ s, Transition.run Machine.step racing twoCores = some s ∧
      s.handed = [⟨1, 4096, 2⟩] ∧ s.buffers 1 = none := ⟨_, rfl, rfl, rfl⟩
  obtain ⟨s, hs, hhanded, hgone⟩ := hrun
  exact ⟨s, Transition.Reaches.run (.init twoCores_init) racing
    (fun _ _ e _ hstep => ⟨e, trivial, hstep⟩) hs, hhanded, hgone⟩

/-- A buffer that was pinned in peace stays. -/
theorem attached_buffer_stays : ∃ s : Machine 2,
    Transition.Reaches Init (StepIf NoOverlap) s ∧ ∃ p ∈ s.handed,
      s.Keeps p ∧ ∀ c, s.core c ≠ .taking p.id := by
  have h₀ : Transition.Reaches Init (StepIf NoOverlap) twoCores := .init twoCores_init
  have h₁ := h₀.step ⟨.createTake 0 ⟨4096, [0, 0]⟩, trivial, rfl⟩
  have h₂ := h₁.step ⟨.createInsert 0, trivial, rfl⟩
  have h₃ := h₂.step ⟨.lock 0, trivial, rfl⟩
  have h₄ := h₃.step ⟨.pinRead 0 1, by intro c; revert c; decide, rfl⟩
  have h₅ := h₄.step ⟨.pinInsert 0, trivial, rfl⟩
  exact ⟨_, h₅, _, List.mem_cons_self .., pinned_buffers_stay h₅ _ (List.mem_cons_self ..)⟩

end Yggdrasil.Pins
