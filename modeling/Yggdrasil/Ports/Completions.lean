import Yggdrasil.Ports.Row
import Yggdrasil.Lib.Tally

/-!
# Completions are made exactly once

Every accepted submission is parked, or its completion is in the completion ring, on its
way or delivered, as long as no ring overflows. A read with the tag that suppresses
completions is completed nevertheless, and what overflows a ring is lost.
-/

namespace Yggdrasil.Ports

variable {n : ℕ} {δ : Type} {io : Devices δ}

/-- Submissions with a tag. -/
def sqesWith (t : Word) (sqes : List Sqe) : ℕ := sqes.countP fun sqe => sqe.tag = t

/-- Completions with a tag. -/
def cqesWith (t : Word) (cqes : List Cqe) : ℕ := cqes.countP fun cqe => cqe.tag = t

/-- Submissions of two lists are counted one by one. -/
@[simp] theorem sqesWith_append (t : Word) (xs ys : List Sqe) :
    sqesWith t (xs ++ ys) = sqesWith t xs + sqesWith t ys := List.countP_append

/-- So are completions. -/
@[simp] theorem cqesWith_append (t : Word) (xs ys : List Cqe) :
    cqesWith t (xs ++ ys) = cqesWith t xs + cqesWith t ys := List.countP_append

/-- One more submission counts if it has the tag. -/
@[simp] theorem sqesWith_cons (t : Word) (sqe : Sqe) (xs : List Sqe) :
    sqesWith t (sqe :: xs) = sqesWith t xs + if sqe.tag = t then 1 else 0 := by
  simp [sqesWith, List.countP_cons]

/-- So does one more completion. -/
@[simp] theorem cqesWith_cons (t : Word) (cqe : Cqe) (xs : List Cqe) :
    cqesWith t (cqe :: xs) = cqesWith t xs + if cqe.tag = t then 1 else 0 := by
  simp [cqesWith, List.countP_cons]

/-- No submission has the tag. -/
@[simp] theorem sqesWith_nil (t : Word) : sqesWith t [] = 0 := rfl

/-- No completion has the tag. -/
@[simp] theorem cqesWith_nil (t : Word) : cqesWith t [] = 0 := rfl

/-- What a port holds under a tag: parked reads and completions. -/
def held (t : Word) (p : Port) : ℕ := sqesWith t p.pendingReads.entries + cqesWith t p.cq.entries

/-- A completion that finds room is held. -/
theorem held_complete {p : Port} (h : p.cq.entries.length < 64) (t : Word) (cqe : Cqe) :
    held t (p.complete cqe) = held t p + if cqe.tag = t then 1 else 0 := by
  rcases p.complete_cases cqe with ⟨-, hcq, -⟩ | ⟨hfull, -⟩
  · rw [held, hcq, p.complete_pendingReads, held, cqesWith_append, cqesWith_cons, cqesWith_nil]
    omega
  · omega

/-- A read that finds room is held. -/
theorem held_park {p : Port} (h : p.pendingReads.entries.length < 64) (t : Word) (sqe : Sqe) :
    held t (p.park sqe) = held t p + if sqe.tag = t then 1 else 0 := by
  have hreads : (p.park sqe).pendingReads.entries = p.pendingReads.entries ++ [sqe] :=
    Ring.entries_offer_of_lt h sqe
  rw [held, hreads, held, sqesWith_append, sqesWith_cons, sqesWith_nil]
  change _ + cqesWith t p.cq.entries = _
  omega

/-- The pump turns parked reads into completions, if they find room. -/
theorem held_served {k : ℕ} {p p' : Port} {rx rx' : List UInt8} (h : Served k p rx p' rx')
    (hroom : p.cq.entries.length + k ≤ 64) (t : Word) : held t p' = held t p := by
  induction h with
  | done p rx => rfl
  | @read k p p' rx rx' sqe reads result byte hread _ ih =>
    have hlt : ({ p with pendingReads := reads } : Port).cq.entries.length < 64 := by
      change p.cq.entries.length < 64
      omega
    have hlen : (({ p with pendingReads := reads } : Port).complete
        ⟨sqe.tag, result, byte⟩).cq.entries.length = p.cq.entries.length + 1 := by
      rcases PortOf.complete_cases ⟨sqe.tag, result, byte⟩ { p with pendingReads := reads }
        with ⟨-, hcq, -⟩ | ⟨hfull, -⟩
      · rw [hcq]
        exact List.length_append
      · omega
    rw [ih (by omega), held_complete hlt, held, held, hread, sqesWith_cons]
    dsimp only
    omega

/-- No entry of a port has the tag that suppresses completions. -/
structure Unskipped (p : Port) : Prop where
  /-- No parked read. -/
  reads : ∀ sqe ∈ p.pendingReads.entries, sqe.tag ≠ skipCqe
  /-- No completion. -/
  cqes : ∀ cqe ∈ p.cq.entries, cqe.tag ≠ skipCqe

/-- A new port has nothing. -/
theorem Unskipped.empty (owner : ℕ) (kind : PortKind) :
    Unskipped (Machine.newPort owner kind) :=
  ⟨fun _ hsqe => absurd hsqe List.not_mem_nil, fun _ hcqe => absurd hcqe List.not_mem_nil⟩

/-- Taking completions out leaves nothing of them. -/
theorem Unskipped.taken {p : Port} (h : Unskipped p) : Unskipped { p with cq := .empty } :=
  ⟨h.reads, fun _ hcqe => absurd hcqe List.not_mem_nil⟩

/-- A completion with another tag keeps that. -/
theorem Unskipped.complete {p : Port} (h : Unskipped p) {cqe : Cqe} (hcqe : cqe.tag ≠ skipCqe) :
    Unskipped (p.complete cqe) := by
  rcases p.complete_cases cqe with ⟨-, hcq, -⟩ | ⟨-, heq⟩
  · refine ⟨by rw [p.complete_pendingReads]; exact h.reads, fun x hx => ?_⟩
    rw [hcq] at hx
    rcases List.mem_append.mp hx with hx | hx
    · exact h.cqes x hx
    · rw [List.mem_singleton.mp hx]
      exact hcqe
  · rw [heq]
    exact h

/-- Parked reads with other tags are completed with other tags. -/
theorem Unskipped.served {k : ℕ} {p p' : Port} {rx rx' : List UInt8} (hp : Unskipped p)
    (h : Served k p rx p' rx') : Unskipped p' := by
  induction h with
  | done p rx => exact hp
  | @read k p p' rx rx' sqe reads result byte hread _ ih =>
    have hsqe : sqe.tag ≠ skipCqe := hp.reads sqe (by rw [hread]; exact List.mem_cons_self)
    have hrest : Unskipped { p with pendingReads := reads } := by
      refine ⟨fun x hx => hp.reads x ?_, hp.cqes⟩
      rw [hread]
      exact List.mem_cons_of_mem _ hx
    exact ih (hrest.complete hsqe)

/-- A submission that finds room is held, or wants no completion. -/
private theorem handled_held {sqe : Sqe} {p p' : Port} {rx rx' : List UInt8}
    (h : Handled sqe p rx p' rx') (hp : Unskipped p)
    (hroom : if p.Parks sqe then sqe.tag ≠ skipCqe ∧ p.pendingReads.entries.length < 64
      else sqe.tag ≠ skipCqe → p.cq.entries.length < 64) :
    Unskipped p' ∧ ∀ t, t ≠ skipCqe → held t p' = held t p + if sqe.tag = t then 1 else 0 := by
  cases h with
  | finish result byte _ hparks =>
    rw [if_neg hparks] at hroom
    unfold PortOf.finish
    by_cases hskip : sqe.tag ≠ skipCqe
    · rw [if_pos hskip]
      exact ⟨hp.complete hskip, fun t _ => held_complete (hroom hskip) t _⟩
    · rw [if_neg hskip]
      refine ⟨hp, fun t ht => ?_⟩
      have hne : sqe.tag ≠ t := by
        rintro rfl
        exact hskip ht
      rw [if_neg hne, Nat.add_zero]
  | park _ hparks =>
    rw [if_pos hparks] at hroom
    refine ⟨⟨fun x hx => ?_, hp.cqes⟩, fun t _ => held_park hroom.2 t sqe⟩
    have hreads : (p.park sqe).pendingReads.entries = p.pendingReads.entries ++ [sqe] :=
      Ring.entries_offer_of_lt hroom.2 sqe
    rw [hreads] at hx
    rcases List.mem_append.mp hx with hx | hx
    · exact hp.reads x hx
    · rw [List.mem_singleton.mp hx]
      exact hroom.1

/-- Events that lose nothing. Reads are not submitted with the tag that suppresses
completions, nor to a port with all places for parked reads taken; other submissions that
want a completion find room in the completion ring; and when the pump collects, every port
has room for the completions it can make. -/
def Careful (s : Machine n δ) : Event n δ → Prop
  | .submit _ id sqe => ∀ p, s.ports id = some p →
      if p.Parks sqe then sqe.tag ≠ skipCqe ∧ p.pendingReads.entries.length < 64
      else sqe.tag ≠ skipCqe → p.cq.entries.length < 64
  | .collect _ => ∀ id p, s.ports id = some p →
      p.cq.entries.length + p.servable s.hub.serialRx.entries ≤ 64
  | _ => True

namespace Machine

/-- The completions of a port under a tag that are on their way. -/
def onTheWay (t : Word) (id : ℕ) (s : Machine n δ) : ℕ :=
  Tally.tally (fun loc => cqesWith t (loc.undelivered id)) s.core

/-- Every submission of a port has one place. -/
structure Exact (s : Machine n δ) (id : ℕ) : Prop where
  /-- Nothing has the tag that suppresses completions. -/
  unskipped : ∀ p, s.ports id = some p → Unskipped p
  /-- Nothing on its way has it. -/
  way : ∀ c, ∀ cqe ∈ (s.core c).undelivered id, cqe.tag ≠ skipCqe
  /-- Nothing delivered has it. -/
  delivered : ∀ cqe ∈ s.delivered id, cqe.tag ≠ skipCqe
  /-- Submissions are held, on their way or delivered, as long as the owner lives. -/
  count : ∀ p, s.ports id = some p → s.dead p.owner = false → ∀ t, t ≠ skipCqe →
    sqesWith t (s.accepted id) =
      held t p + s.onTheWay t id + cqesWith t (s.delivered id)

variable {s s' : Machine n δ} {e : Event n δ}

private theorem onTheWay_update {c : Fin n} {loc : Loc}
    (h : s'.core = Function.update s.core c loc) (t : Word) (id : ℕ) :
    s'.onTheWay t id + cqesWith t ((s.core c).undelivered id) =
      s.onTheWay t id + cqesWith t (loc.undelivered id) := by
  rw [onTheWay, h]
  exact Tally.tally_update _ s.core c loc

/-- A careful step keeps every submission in one place. -/
theorem Exact.step (hwf : s.Wf) {id : ℕ} (h : s.Exact id) (hstep : s.step io e = some s')
    (hok : Careful s e) : s'.Exact id := by
  -- what is on its way stays, if every core keeps its part
  have hway : (∀ c, (s'.core c).undelivered id = (s.core c).undelivered id) → ∀ t,
      s'.onTheWay t id = s.onTheWay t id := fun hsame t => by
    rw [onTheWay, onTheWay, Tally.tally, Tally.tally]
    simp only [hsame]
  cases step_row hwf hstep id with
  | same hport hkeep =>
    refine ⟨fun p hp => h.unskipped p (hport ▸ hp), fun c => ?_, ?_, fun p hp halive t ht => ?_⟩
    · rw [hkeep.undelivered]
      exact h.way c
    · rw [hkeep.delivered]
      exact h.delivered
    · rw [hkeep.accepted, hkeep.delivered, hway hkeep.undelivered]
      exact h.count p (hport ▸ hp) (step_alive hstep halive) t ht
  | opened c owner kind hloc _ hport hkeep =>
    have hunused := (hwf.opening c id owner kind hloc).2
    have hnone : ∀ d, (s'.core d).undelivered id = [] := fun d =>
      (hkeep.undelivered d).trans (hunused.undelivered d)
    refine ⟨fun p hp => ?_, fun d cqe hcqe => ?_, fun cqe hcqe => ?_, fun p hp _ t _ => ?_⟩
    · rw [hport] at hp
      cases hp
      exact .empty owner kind
    · rw [hnone] at hcqe
      cases hcqe
    · rw [hkeep.delivered, hunused.delivered] at hcqe
      cases hcqe
    · rw [hport] at hp
      cases hp
      have hzero : s'.onTheWay t id = 0 := Tally.eq_zero fun d => by rw [hnone]; rfl
      rw [hkeep.accepted, hunused.accepted, hkeep.delivered, hunused.delivered, hzero]
      rfl
  | submitted c sqe p p' he hp hp' hhandled haccepted hdelivered hcore =>
    subst he
    obtain ⟨hfresh, hheld⟩ := handled_held hhandled (h.unskipped p hp) (hok p hp)
    refine ⟨fun q hq => ?_, fun d => ?_, ?_, fun q hq halive t ht => ?_⟩
    · rw [hp'] at hq
      cases hq
      exact hfresh
    · rw [hcore]
      exact h.way d
    · rw [hdelivered]
      exact h.delivered
    · rw [hp'] at hq
      cases hq
      have hcount := h.count p hp (step_alive hstep (hhandled.same.owner ▸ halive)) t ht
      rw [haccepted, hdelivered, hway hcore, sqesWith_append, sqesWith_cons, sqesWith_nil,
        hheld t ht]
      omega
  | pumped c p ds he hp hvisited haccepted hdelivered hnil hcore =>
    subst he
    obtain ⟨k, p₁, rx₁, rx₂, hk, -, -, hserved, hport, hds⟩ := hvisited
    have hroom := hok id p hp
    have hfresh := (h.unskipped p hp).served hserved
    have htaken := Loc.undelivered_taken hds
    refine ⟨fun q hq => ?_, fun d cqe hcqe => ?_, ?_, fun q hq halive t ht => ?_⟩
    · rw [hport] at hq
      cases hq
      exact hfresh.taken
    · rw [hcore, Function.update_apply] at hcqe
      split at hcqe
      · rw [htaken] at hcqe
        exact hfresh.cqes cqe hcqe
      · exact h.way d cqe hcqe
    · rw [hdelivered]
      exact h.delivered
    · rw [hport] at hq
      cases hq
      have hcount := h.count p hp (step_alive hstep (hserved.same.owner ▸ halive)) t ht
      have hheld := held_served hserved (by omega) t
      have htally := onTheWay_update hcore t id
      rw [hnil, htaken, cqesWith_nil] at htally
      rw [haccepted, hdelivered, hcount]
      rw [held] at hheld
      change _ = sqesWith t p₁.pendingReads.entries + 0 + s'.onTheWay t id + _
      omega
  | delivered c d ds hd hloc hcore hport haccepted hdelivered =>
    have hfirst : (s.core c).undelivered id = d.cqe :: (Loc.delivering ds).undelivered id := by
      rw [hloc, Loc.undelivered_cons hd]
    refine ⟨fun p hp => h.unskipped p (hport ▸ hp), fun b cqe hcqe => ?_, fun cqe hcqe => ?_,
      fun p hp halive t ht => ?_⟩
    · rw [hcore, Function.update_apply] at hcqe
      split at hcqe
      · refine h.way c cqe ?_
        rw [hfirst]
        exact List.mem_cons_of_mem _ hcqe
      · exact h.way b cqe hcqe
    · rw [hdelivered] at hcqe
      split at hcqe
      · exact h.delivered cqe hcqe
      · rcases List.mem_append.mp hcqe with hold | hnew
        · exact h.delivered cqe hold
        · refine h.way c cqe ?_
          rw [hfirst, List.mem_singleton.mp hnew]
          exact List.mem_cons_self
    · have hp₀ : s.ports id = some p := hport ▸ hp
      have howner : d.owner = p.owner :=
        hwf.owner c _ d p hloc List.mem_cons_self (by rw [hd]; exact hp₀)
      have halive₀ := step_alive hstep halive
      have hcount := h.count p hp₀ halive₀ t ht
      have htally := onTheWay_update hcore t id
      rw [hfirst, cqesWith_cons] at htally
      rw [haccepted, hdelivered, howner, halive₀, if_neg (by simp), cqesWith_append,
        cqesWith_cons, cqesWith_nil, hcount]
      omega
  | closed p hp howner hnone hkeep =>
    refine ⟨fun q hq => ?_, fun c => ?_, ?_, fun q hq => ?_⟩
    · rw [hnone] at hq
      cases hq
    · rw [hkeep.undelivered]
      exact h.way c
    · rw [hkeep.delivered]
      exact h.delivered
    · rw [hnone] at hq
      cases hq

/-- Submissions are in order at boot. -/
theorem Exact.init (h : Init s) (id : ℕ) : s.Exact id := by
  obtain ⟨hidle, hports, -, -, -, -, hdelivered, -⟩ := h
  refine ⟨fun p hp => ?_, fun c cqe hcqe => ?_, fun cqe hcqe => ?_, fun p hp => ?_⟩
  · rw [hports] at hp
    cases hp
  · rw [hidle] at hcqe
    cases hcqe
  · rw [hdelivered] at hcqe
    cases hcqe
  · rw [hports] at hp
    cases hp

end Machine

/-- Completions are made exactly once in careful runs. As long as a port is open and its
owner lives, the submissions accepted on it with a tag that wants a completion are as many
as the parked reads with that tag, the completions with that tag in the ring, those in the
delivery lists of the pumps, and those delivered to the owner. A submission with the tag
that suppresses completions is never completed. -/
theorem completions_exactly_once {s : Machine n δ} (h : ReachesIf io Careful s) {id : ℕ}
    {p : Port} (hp : s.ports id = some p) (halive : s.dead p.owner = false) :
    (∀ t, t ≠ skipCqe → sqesWith t (s.accepted id) =
      sqesWith t p.pendingReads.entries + cqesWith t p.cq.entries + s.onTheWay t id +
        cqesWith t (s.delivered id)) ∧
    (∀ cqe ∈ p.cq.entries, cqe.tag ≠ skipCqe) ∧
    (∀ c, ∀ cqe ∈ (s.core c).undelivered id, cqe.tag ≠ skipCqe) ∧
    ∀ cqe ∈ s.delivered id, cqe.tag ≠ skipCqe := by
  have hinv : s.Wf ∧ s.Exact id := by
    refine Transition.Reaches.invariant (P := fun s : Machine n δ => s.Wf ∧ s.Exact id)
      (fun s hinit => ⟨.init hinit, .init hinit id⟩) ?_ h
    rintro s s' ⟨hwf, hexact⟩ ⟨e, hok, hstep⟩
    exact ⟨hwf.step hstep, hexact.step hwf hstep hok⟩
  obtain ⟨-, hexact⟩ := hinv
  exact ⟨hexact.count p hp halive, (hexact.unskipped p hp).cqes, hexact.way, hexact.delivered⟩

/-- Devices that do nothing. -/
def noDevices : Devices Unit where
  has _ := false
  rawWriteByte _ _ := ()
  blkWrite _ _ _ := (false, ())
  blkRead _ _ := (none, ())
  randomBytes _ _ := (none, ())
  netSend _ _ := (false, ())
  netTryRecv _ := (none, ())
  gpuCtrl _ _ _ := (none, ())
  virtToPhys _ _ := 0

/-- Some cores at boot. -/
def bootPorts (n : ℕ) : Machine n Unit where
  core _ := .idle
  ports _ := none
  nextPort := 1
  hub := ⟨.empty, ⟨fun _ => none, fun _ => false, 1⟩, ()⟩
  dead pid := pid = 0
  accepted _ := []
  delivered _ := []
  received := []

/-- The machine of `bootPorts` is at boot. -/
theorem init_bootPorts (n : ℕ) : Init (bootPorts n) :=
  ⟨fun _ => rfl, fun _ => rfl, rfl, rfl, rfl, fun _ => rfl, fun _ => rfl, rfl⟩

/-- Process 1 opens the serial port and writes a byte to it; the completion reaches it. -/
theorem write_completed_once : ∃ (s : Machine 1 Unit) (p : Port), ReachesIf noDevices Careful s ∧
    s.ports 1 = some p ∧ s.dead p.owner = false ∧ (s.accepted 1).map Sqe.tag = [5] ∧
    sqesWith 5 p.pendingReads.entries + cqesWith 5 p.cq.entries + s.onTheWay 5 1 +
      cqesWith 5 (s.delivered 1) = 1 := by
  have hboot : ReachesIf noDevices Careful (bootPorts 1) := .init (init_bootPorts 1)
  have htaken := hboot.event (.openTake 0 1 .serial) trivial rfl
  have hopen := htaken.event (.openInsert 0) trivial rfl
  have hsubmitted := hopen.event (.submit 0 1 ⟨opWrite, 5, 65, 0⟩)
    (fun p hp => by cases hp; decide) rfl
  have honce := @completions_exactly_once _ _ _ _ hsubmitted 1 _ rfl rfl
  exact ⟨_, _, hsubmitted, rfl, rfl, rfl, (honce.1 5 (by decide)).symm⟩

/-- Process 1 opens the serial port and reads `k` times before input arrives. -/
def parkReads (k : ℕ) (tag : Word) : List (Event 1 Unit) :=
  [.openTake 0 1 .serial, .openInsert 0] ++
    (List.replicate k [.submit 0 1 ⟨opRead, tag, 0, 0⟩, .collect 0, .finish 0]).flatten

/-- The submissions with tag 5 on port 1, if its owner lives, and how many of them have a
place. -/
def places (s : Machine 1 Unit) : Option (ℕ × ℕ) :=
  (s.ports 1).bind fun p =>
    if s.dead p.owner then none
    else some (sqesWith 5 (s.accepted 1),
      held 5 p + s.onTheWay 5 1 + cqesWith 5 (s.delivered 1))

set_option maxRecDepth 10000 in
/-- Three ways to go wrong. A read with the tag that suppresses completions is completed.
Of 65 reads one is lost, as there are 64 places for parked ones. Of 64 parked reads for
which input has arrived one is lost if the completion of a write is in the ring when the
pump completes them. -/
theorem reads_completed_or_lost :
    (∃ s : Machine 1 Unit, Reachable noDevices s ∧
      s.delivered 1 = [⟨skipCqe, 97, some 97⟩]) ∧
    (∃ s : Machine 1 Unit, Reachable noDevices s ∧ places s = some (65, 64)) ∧
    ∃ s : Machine 1 Unit, Reachable noDevices s ∧ places s = some (64, 63) := by
  have hboot : Reachable noDevices (bootPorts 1) := .init (init_bootPorts 1)
  have hrun : ∀ (es : List (Event 1 Unit)) (P : Machine 1 Unit → Prop) [DecidablePred P],
      ((Transition.run (Machine.step noDevices) es (bootPorts 1)).any fun s => P s) = true →
      ∃ s, Reachable noDevices s ∧ P s := by
    intro es P _ hP
    obtain ⟨s, hs, hps⟩ := (Option.any_eq_true _ _).mp hP
    exact ⟨s, hboot.events es (fun _ _ _ => trivial) hs, of_decide_eq_true hps⟩
  refine ⟨?_, ?_, ?_⟩
  · exact hrun (parkReads 1 skipCqe ++ [.irq 97, .pump 0, .collect 0, .deliver 0]) _
      (by decide +kernel)
  · exact hrun (parkReads 65 5) _ (by decide +kernel)
  · exact hrun (parkReads 64 5 ++ List.replicate 64 (.irq 97) ++
      [.submit 0 1 ⟨opWrite, 6, 65, 0⟩, .collect 0]) _ (by decide +kernel)

end Yggdrasil.Ports
