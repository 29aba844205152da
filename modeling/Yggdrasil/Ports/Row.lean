import Yggdrasil.Ports.Spec

/-!
# What a step does to one port

The state that concerns one port is its entry, the submissions accepted on it, and its
completions on the way to the owner and there. The lemma `step_row` says once what a step
does to it.
-/

namespace Yggdrasil.Ports

variable {n : ℕ} {δ : Type} {io : Devices δ}

/-- The completions of a port that a core has taken out and not delivered yet. -/
def Loc.undelivered (id : ℕ) : Loc → List Cqe
  | .delivering ds => (ds.filter fun d => d.port = id).map Delivery.cqe
  | _ => []

/-- The first completion of a delivery list, if it is for the port. -/
theorem Loc.undelivered_cons {id : ℕ} {d : Delivery} (hd : d.port = id) (ds : List Delivery) :
    (Loc.delivering (d :: ds)).undelivered id = d.cqe :: (Loc.delivering ds).undelivered id := by
  rw [undelivered, List.filter_cons_of_pos (by simpa using hd)]
  rfl

/-- All completions of a port that the pump has visited. -/
theorem Loc.undelivered_taken {id owner : ℕ} {ds : List Delivery} {cqes : List Cqe}
    (hds : ds.filter (fun d => d.port = id) = cqes.map (⟨owner, id, ·⟩)) :
    (Loc.delivering ds).undelivered id = cqes := by
  rw [undelivered, hds, List.map_map]
  exact List.map_id _

namespace Machine

/-- Nothing has happened under this number. -/
structure Unused (s : Machine n δ) (id : ℕ) : Prop where
  /-- There is no port. -/
  ports : s.ports id = none
  /-- Nothing was submitted. -/
  accepted : s.accepted id = []
  /-- Nothing was delivered. -/
  delivered : s.delivered id = []
  /-- Nothing is on its way. -/
  undelivered : ∀ c, (s.core c).undelivered id = []

/-- The port runtime is in order. -/
structure Wf (s : Machine n δ) : Prop where
  /-- Submission rings are empty between sections. -/
  sq : ∀ id p, s.ports id = some p → p.sq.entries = []
  /-- The pump visits all ports. -/
  below : ∀ id p, s.ports id = some p → id < s.nextPort
  /-- Numbers not given out are unused. -/
  fresh : ∀ id, s.nextPort ≤ id → s.Unused id
  /-- A number that `open` has is unused. -/
  opening : ∀ c id owner kind, s.core c = .opening id owner kind →
    id < s.nextPort ∧ s.Unused id
  /-- One core has it. -/
  unique : ∀ c d id owner owner' kind kind', s.core c = .opening id owner kind →
    s.core d = .opening id owner' kind' → c = d
  /-- Completions go to the owner of the port. -/
  owner : ∀ c ds d p, s.core c = .delivering ds → d ∈ ds → s.ports d.port = some p →
    d.owner = p.owner

/-- The part of the state that concerns one port, apart from its entry, stays. -/
structure Keeps (id : ℕ) (s s' : Machine n δ) : Prop where
  /-- The submissions. -/
  accepted : s'.accepted id = s.accepted id
  /-- The completions delivered. -/
  delivered : s'.delivered id = s.delivered id
  /-- The completions on their way. -/
  undelivered : ∀ c, (s'.core c).undelivered id = (s.core c).undelivered id

/-- What a step does to one port. -/
inductive RowStep (id : ℕ) (s : Machine n δ) (e : Event n δ) (s' : Machine n δ) : Prop
  /-- Nothing. -/
  | same : s'.ports id = s.ports id → Keeps id s s' → RowStep id s e s'
  /-- The port is opened. -/
  | opened (c : Fin n) (owner : ℕ) (kind : PortKind) : s.core c = .opening id owner kind →
      s'.core c = .idle → s'.ports id = some (newPort owner kind) → Keeps id s s' →
      RowStep id s e s'
  /-- A submission is accepted. -/
  | submitted (c : Fin n) (sqe : Sqe) (p p' : Port) : e = .submit c id sqe →
      s.ports id = some p → s'.ports id = some p' →
      Handled sqe p s.hub.serialRx.entries p' s'.hub.serialRx.entries →
      s'.accepted id = s.accepted id ++ [sqe] → s'.delivered id = s.delivered id →
      (∀ d, (s'.core d).undelivered id = (s.core d).undelivered id) → RowStep id s e s'
  /-- Completions are taken out. -/
  | pumped (c : Fin n) (p : Port) (ds : List Delivery) : e = .collect c → s.ports id = some p →
      Visited id p s.hub.serialRx.entries s'.hub.serialRx.entries (s'.ports id) ds →
      s'.accepted id = s.accepted id → s'.delivered id = s.delivered id →
      (s.core c).undelivered id = [] → s'.core = Function.update s.core c (.delivering ds) →
      RowStep id s e s'
  /-- A completion is delivered, or lost if the owner is dead. -/
  | delivered (c : Fin n) (d : Delivery) (ds : List Delivery) : d.port = id →
      s.core c = .delivering (d :: ds) → s'.core = Function.update s.core c (.delivering ds) →
      s'.ports id = s.ports id → s'.accepted id = s.accepted id →
      s'.delivered id =
        (if s.dead d.owner then s.delivered id else s.delivered id ++ [d.cqe]) →
      RowStep id s e s'
  /-- The port is closed. -/
  | closed (p : Port) : s.ports id = some p → s.dead p.owner = true → s'.ports id = none →
      Keeps id s s' → RowStep id s e s'

section

variable {s s' : Machine n δ} {e : Event n δ}

private theorem undelivered_update {core : Fin n → Loc} {c : Fin n} {loc : Loc} {id : ℕ}
    (h : loc.undelivered id = (core c).undelivered id) (d : Fin n) :
    (Function.update core c loc d).undelivered id = (core d).undelivered id := by
  rw [Function.update_apply]
  split
  · rename_i hd
    rw [h, hd]
  · rfl

/-- What a step does to one port. -/
theorem step_row (hwf : s.Wf) (h : s.step io e = some s') (id : ℕ) : RowStep id s e s' := by
  cases e with
  | openTake c owner kind =>
    rw [step] at h
    split at h
    · rename_i hloc
      split at h
      · cases h
        exact .same rfl ⟨rfl, rfl, undelivered_update (by rw [hloc]; rfl)⟩
      · cases h
        exact .same rfl ⟨rfl, rfl, fun _ => rfl⟩
    · cases h
  | openInsert c =>
    rw [step] at h
    split at h
    · rename_i i owner kind hloc
      cases h
      have hkeep : Keeps id s (s.insert c i owner kind) :=
        ⟨rfl, rfl, undelivered_update (by rw [hloc]; rfl)⟩
      by_cases hid : id = i
      · subst hid
        exact .opened c owner kind hloc (Function.update_self ..) (Function.update_self ..) hkeep
      · exact .same (Function.update_of_ne hid _ _) hkeep
    · cases h
  | submit c i sqe =>
    rw [step] at h
    split at h
    · rename_i hloc
      cases h
      have hcore : ∀ d, (Function.update s.core c .pumping d).undelivered id =
          (s.core d).undelivered id := undelivered_update (by rw [hloc]; rfl)
      unfold submit
      cases hp : s.ports i with
      | none => exact .same rfl ⟨rfl, rfl, fun _ => rfl⟩
      | some p =>
        obtain ⟨p', hub, hsubmit, hhandled⟩ :=
          @handled_submit δ io sqe p s.hub (hwf.sq i p hp)
        dsimp only
        rw [hsubmit]
        by_cases hid : id = i
        · subst hid
          exact .submitted c sqe p p' rfl hp (Function.update_self ..) hhandled
            (Function.update_self ..) rfl hcore
        · exact .same (Function.update_of_ne hid _ _)
            ⟨Function.update_of_ne hid _ _, rfl, hcore⟩
    · cases h
  | pump c | finish c =>
    rw [step] at h
    split at h
    · rename_i hloc
      cases h
      exact .same rfl ⟨rfl, rfl, undelivered_update (by rw [hloc]; rfl)⟩
    · cases h
  | collect c =>
    rw [step] at h
    split at h
    · rename_i hloc
      cases h
      cases hp : s.ports id with
      | none =>
        obtain ⟨hport, hds⟩ := @pumpPorts_skip δ io (List.range s.nextPort) id s.ports s.hub
          (.inr hp)
        refine .same hport ⟨rfl, rfl, undelivered_update ?_⟩
        rw [hloc, Loc.undelivered, hds]
        rfl
      | some p =>
        have hvisited := @pumpPorts_visited δ io _ List.nodup_range id
          (List.mem_range.mpr (hwf.below id p hp)) s.ports p hp s.hub
        exact .pumped c p _ rfl hp hvisited rfl rfl (by rw [hloc]; rfl) rfl
    · cases h
  | deliver c =>
    rw [step] at h
    split at h
    · rename_i d ds hloc
      cases h
      have hrest : ((s.deliver d).setCore c (.delivering ds)).core =
          Function.update s.core c (.delivering ds) := by
        unfold deliver
        split <;> rfl
      have hports : (s.deliver d).ports = s.ports := by
        unfold deliver
        split <;> rfl
      have haccepted : (s.deliver d).accepted = s.accepted := by
        unfold deliver
        split <;> rfl
      by_cases hid : d.port = id
      · subst hid
        refine .delivered c d ds rfl hloc hrest (congrFun hports _) (congrFun haccepted _) ?_
        unfold deliver
        split
        · rfl
        · exact Function.update_self ..
      · refine .same (congrFun hports _) ⟨congrFun haccepted _, ?_, fun e => ?_⟩
        · unfold deliver
          split
          · rfl
          · exact Function.update_of_ne (Ne.symm hid) _ _
        · rw [hrest]
          refine undelivered_update ?_ e
          rw [hloc, Loc.undelivered, Loc.undelivered, List.filter_cons_of_neg (by simpa using hid)]
    · cases h
  | irq b =>
    cases h
    unfold irq
    split
    · exact .same rfl ⟨rfl, rfl, fun _ => rfl⟩
    · exact .same rfl ⟨rfl, rfl, fun _ => rfl⟩
  | device dev | buffers b | die pid =>
    cases h
    exact .same rfl ⟨rfl, rfl, fun _ => rfl⟩
  | close pid =>
    rw [step] at h
    split at h
    · rename_i hdead
      cases h
      cases hp : s.ports id with
      | none => exact .same (by simp [close, hp]) ⟨rfl, rfl, fun _ => rfl⟩
      | some p =>
        by_cases howner : p.owner = pid
        · refine .closed p hp (by rw [howner]; exact hdead) ?_ ⟨rfl, rfl, fun _ => rfl⟩
          simp [close, hp, howner]
        · refine .same ?_ ⟨rfl, rfl, fun _ => rfl⟩
          simp [close, hp, howner]
    · cases h

/-- What a step does to the cores. -/
inductive CoreStep (io : Devices δ) (s s' : Machine n δ) : Prop
  /-- Nothing. -/
  | same : s'.core = s.core → s'.nextPort = s.nextPort → CoreStep io s s'
  /-- `open` takes a number. -/
  | openTake (c : Fin n) (owner : ℕ) (kind : PortKind) :
      s'.core = Function.update s.core c (.opening s.nextPort owner kind) →
      s'.nextPort = s.nextPort + 1 → CoreStep io s s'
  /-- A core goes on to a location where it holds nothing. -/
  | move (c : Fin n) (loc : Loc) : s'.core = Function.update s.core c loc →
      (loc = .idle ∨ loc = .pumping) → s'.nextPort = s.nextPort → CoreStep io s s'
  /-- `pump` has collected completions. -/
  | collect (c : Fin n) : s' = s.collect io c → CoreStep io s s'
  /-- `pump` has delivered a completion. -/
  | deliver (c : Fin n) (d : Delivery) (ds : List Delivery) : s.core c = .delivering (d :: ds) →
      s'.core = Function.update s.core c (.delivering ds) → s'.nextPort = s.nextPort →
      CoreStep io s s'

/-- What a step does to the cores. -/
theorem step_core (h : s.step io e = some s') : CoreStep io s s' := by
  cases e with
  | openTake c owner kind =>
    rw [step] at h
    split at h
    · split at h
      · cases h
        exact .openTake c owner kind rfl rfl
      · cases h
        exact .same rfl rfl
    · cases h
  | openInsert c | finish c =>
    rw [step] at h
    split at h
    · cases h
      exact .move c .idle rfl (.inl rfl) rfl
    · cases h
  | submit c i sqe =>
    rw [step] at h
    split at h
    · cases h
      unfold submit
      split
      · exact .same rfl rfl
      · split
        · exact .same rfl rfl
        · exact .move c .pumping rfl (.inr rfl) rfl
    · cases h
  | pump c =>
    rw [step] at h
    split at h
    · cases h
      exact .move c .pumping rfl (.inr rfl) rfl
    · cases h
  | collect c =>
    rw [step] at h
    split at h
    · cases h
      exact .collect c rfl
    · cases h
  | deliver c =>
    rw [step] at h
    split at h
    · rename_i d ds hloc
      cases h
      refine .deliver c d ds hloc ?_ ?_
      · unfold deliver
        split <;> rfl
      · unfold deliver
        split <;> rfl
    · cases h
  | irq b =>
    cases h
    unfold irq
    split <;> exact .same rfl rfl
  | device dev | buffers b | die pid =>
    cases h
    exact .same rfl rfl
  | close pid =>
    rw [step] at h
    split at h
    · cases h
      exact .same rfl rfl
    · cases h

@[simp] private theorem submit_dead (c : Fin n) (id : ℕ) (sqe : Sqe) :
    (s.submit io c id sqe).dead = s.dead := by
  unfold submit
  split
  · rfl
  · split <;> rfl

@[simp] private theorem deliver_dead (d : Delivery) : (s.deliver d).dead = s.dead := by
  unfold deliver
  split <;> rfl

@[simp] private theorem irq_dead (b : UInt8) : (s.irq b).dead = s.dead := by
  unfold irq
  split <;> rfl

/-- A process that is dead stays so in every step. -/
theorem step_dead (h : s.step io e = some s') {pid : ℕ} (hdead : s.dead pid = true) :
    s'.dead pid = true := by
  cases e with
  | die p =>
    cases h
    by_cases hp : pid = p
    · simp [hp]
    · simp [hp, hdead]
  | irq b =>
    cases h
    simpa using hdead
  | device dev =>
    cases h
    exact hdead
  | buffers b =>
    cases h
    exact hdead
  | close p =>
    rw [step] at h
    split at h
    · cases h
      exact hdead
    · cases h
  | openTake c owner kind =>
    rw [step] at h
    split at h
    · split at h <;> (cases h; exact hdead)
    · cases h
  | openInsert c | submit c i sqe | pump c | collect c | deliver c | finish c =>
    rw [step] at h
    split at h
    · cases h
      simpa [setCore, insert, collect] using hdead
    · cases h

/-- Whoever lives has lived before. -/
theorem step_alive (h : s.step io e = some s') {pid : ℕ} (halive : s'.dead pid = false) :
    s.dead pid = false := by
  cases hpid : s.dead pid with
  | false => rfl
  | true =>
    rw [step_dead h hpid] at halive
    cases halive

/-- Numbers are counted up. -/
theorem CoreStep.nextPort_le (h : CoreStep io s s') : s.nextPort ≤ s'.nextPort := by
  cases h with
  | same _ hnext => omega
  | openTake c owner kind _ hnext => omega
  | move c loc _ _ hnext => omega
  | collect c heq =>
    rw [heq]
    exact le_rfl
  | deliver c d ds _ _ hnext => omega

/-- A number that `open` has was had before or is the next one. -/
theorem CoreStep.opening (h : CoreStep io s s') {c : Fin n} {id owner : ℕ} {kind : PortKind}
    (hloc : s'.core c = .opening id owner kind) :
    s.core c = .opening id owner kind ∨ (id = s.nextPort ∧ s'.nextPort = s.nextPort + 1 ∧
      s'.core = Function.update s.core c (.opening id owner kind)) := by
  cases h with
  | same hcore _ => exact .inl (hcore ▸ hloc)
  | openTake d owner' kind' hcore hnext =>
    rw [hcore, Function.update_apply] at hloc
    split at hloc
    · rename_i hcd
      cases hloc
      subst hcd
      exact .inr ⟨rfl, hnext, hcore⟩
    · exact .inl hloc
  | move d loc hcore hl _ =>
    rw [hcore, Function.update_apply] at hloc
    split at hloc
    · subst hloc
      rcases hl with hl | hl <;> cases hl
    · exact .inl hloc
  | collect d heq =>
    subst heq
    change Function.update s.core d _ c = _ at hloc
    rw [Function.update_apply] at hloc
    split at hloc
    · cases hloc
    · exact .inl hloc
  | deliver d x ds _ hcore _ =>
    rw [hcore, Function.update_apply] at hloc
    split at hloc
    · cases hloc
    · exact .inl hloc

/-- An unused number stays unused, unless it is opened. -/
theorem RowStep.unused {id : ℕ} (h : RowStep id s e s') (hunused : s.Unused id) :
    s'.Unused id ∨ ∃ c owner kind, s.core c = .opening id owner kind ∧ s'.core c = .idle := by
  have hnone := hunused.ports
  cases h with
  | same hport hkeep =>
    exact .inl ⟨hport.trans hnone, hkeep.accepted.trans hunused.accepted,
      hkeep.delivered.trans hunused.delivered,
      fun c => (hkeep.undelivered c).trans (hunused.undelivered c)⟩
  | opened c owner kind hloc hloc' _ _ => exact .inr ⟨c, owner, kind, hloc, hloc'⟩
  | submitted c sqe p p' _ hp =>
    rw [hnone] at hp
    cases hp
  | pumped c p ds _ hp =>
    rw [hnone] at hp
    cases hp
  | delivered c d ds hd hloc =>
    have hlist := hunused.undelivered c
    rw [hloc, Loc.undelivered_cons hd] at hlist
    cases hlist
  | closed p hp =>
    rw [hnone] at hp
    cases hp

/-- A port is there before a step if it is after, unless it is opened. -/
theorem RowStep.port {id : ℕ} (h : RowStep id s e s') {p' : Port} (hp' : s'.ports id = some p') :
    (∃ p, s.ports id = some p ∧ p.Same p') ∨
      ∃ c owner kind, s.core c = .opening id owner kind ∧ p' = newPort owner kind := by
  cases h with
  | same hport _ => exact .inl ⟨p', hport ▸ hp', .refl p'⟩
  | opened c owner kind hloc _ hport _ =>
    rw [hport] at hp'
    cases hp'
    exact .inr ⟨c, owner, kind, hloc, rfl⟩
  | submitted c sqe p q _ hp hq hhandled _ _ _ =>
    rw [hq] at hp'
    cases hp'
    exact .inl ⟨p, hp, hhandled.same⟩
  | pumped c p ds _ hp hvisited _ _ _ _ =>
    obtain ⟨k, p₁, rx₁, rx₂, -, -, -, hserved, hport, -⟩ := hvisited
    rw [hport] at hp'
    cases hp'
    have hsame := hserved.same
    exact .inl ⟨p, hp, hsame.owner, hsame.kind, hsame.sq⟩
  | delivered c d ds _ _ _ hport _ _ => exact .inl ⟨p', hport ▸ hp', .refl p'⟩
  | closed p _ _ hnone _ =>
    rw [hnone] at hp'
    cases hp'

/-- A step keeps the port runtime in order. -/
theorem Wf.step (hwf : s.Wf) (h : s.step io e = some s') : s'.Wf := by
  have hrow := step_row hwf h
  have hcore := step_core h
  have hnext := hcore.nextPort_le
  refine ⟨fun id p' hp' => ?_, fun id p' hp' => ?_, fun id hid => ?_,
    fun c id owner kind hloc => ?_, fun c d id owner owner' kind kind' hc hd => ?_,
    fun c ds d p' hloc hd hp' => ?_⟩
  · rcases (hrow id).port hp' with ⟨p, hp, hsame⟩ | ⟨c, owner, kind, -, rfl⟩
    · rw [hsame.sq]
      exact hwf.sq id p hp
    · rfl
  · rcases (hrow id).port hp' with ⟨p, hp, -⟩ | ⟨c, owner, kind, hloc, -⟩
    · exact (hwf.below id p hp).trans_le hnext
    · exact (hwf.opening c id owner kind hloc).1.trans_le hnext
  · rcases (hrow id).unused (hwf.fresh id (hnext.trans hid)) with hunused | ⟨c, o, k, hloc, -⟩
    · exact hunused
    · have hlt := (hwf.opening c id o k hloc).1
      omega
  · rcases hcore.opening hloc with hold | ⟨rfl, hnew, hcores⟩
    · obtain ⟨hlt, hunused⟩ := hwf.opening c id owner kind hold
      refine ⟨hlt.trans_le hnext, ?_⟩
      rcases (hrow id).unused hunused with hunused' | ⟨d, o, k, hd, hidle⟩
      · exact hunused'
      · -- the core that opened it has it no more
        have hcd := hwf.unique c d id owner o kind k hold hd
        rw [hcd, hidle] at hloc
        cases hloc
    · refine ⟨by omega, ?_⟩
      rcases (hrow s.nextPort).unused (hwf.fresh _ le_rfl) with hunused' | ⟨d, o, k, hd, -⟩
      · exact hunused'
      · have hlt := (hwf.opening d _ o k hd).1
        omega
  · rcases hcore.opening hc with hc' | ⟨rfl, -, hcores⟩
    · rcases hcore.opening hd with hd' | ⟨rfl, -, -⟩
      · exact hwf.unique c d id owner owner' kind kind' hc' hd'
      · have hlt := (hwf.opening c _ owner kind hc').1
        omega
    · by_contra hne
      rw [hcores, Function.update_of_ne (Ne.symm hne)] at hd
      have hlt := (hwf.opening d _ owner' kind' hd).1
      omega
  · -- completions on their way before the step
    have hold : ∀ c ds₀, s.core c = .delivering ds₀ → d ∈ ds₀ → d.owner = p'.owner := by
      intro c ds₀ hloc₀ hd₀
      rcases (hrow d.port).port hp' with ⟨p, hp, hsame⟩ | ⟨b, o, k, hopen, -⟩
      · rw [hwf.owner c ds₀ d p hloc₀ hd₀ hp, hsame.owner]
      · have hlist := (hwf.opening b _ o k hopen).2.undelivered c
        rw [hloc₀, Loc.undelivered, List.map_eq_nil_iff, List.filter_eq_nil_iff] at hlist
        exact absurd (decide_eq_true rfl) (hlist d hd₀)
    cases hcore with
    | same hcores _ => exact hold c ds (hcores ▸ hloc) hd
    | openTake b owner kind hcores _ =>
      rw [hcores, Function.update_apply] at hloc
      split at hloc
      · cases hloc
      · exact hold c ds hloc hd
    | move b loc hcores hl _ =>
      rw [hcores, Function.update_apply] at hloc
      split at hloc
      · subst hloc
        rcases hl with hl | hl <;> cases hl
      · exact hold c ds hloc hd
    | collect b heq =>
      subst heq
      change Function.update s.core b _ c = _ at hloc
      rw [Function.update_apply] at hloc
      split at hloc
      · cases hloc
        have hmem : d ∈ (pumpPorts (serve io) (List.range s.nextPort) s.ports s.hub).1.1.filter
            (fun d' => d'.port = d.port) := List.mem_filter.mpr ⟨hd, by simp⟩
        cases hp : s.ports d.port with
        | none =>
          rw [(@pumpPorts_skip δ io _ d.port s.ports s.hub (.inr hp)).2] at hmem
          cases hmem
        | some p =>
          obtain ⟨k, p₁, rx₁, rx₂, -, -, -, hserved, hport, hds⟩ :=
            @pumpPorts_visited δ io _ List.nodup_range d.port
              (List.mem_range.mpr (hwf.below _ p hp)) s.ports p hp s.hub
          rw [hds] at hmem
          obtain ⟨cqe, -, hd'⟩ := List.mem_map.mp hmem
          have hp₁ : (s.collect io b).ports d.port = some { p₁ with cq := .empty } := hport
          rw [hp₁] at hp'
          cases hp'
          rw [← hd']
          exact hserved.same.owner.symm
      · exact hold c ds hloc hd
    | deliver b x xs hb hcores _ =>
      rw [hcores, Function.update_apply] at hloc
      split at hloc
      · rename_i hcb
        cases hloc
        exact hold b _ hb (List.mem_cons_of_mem _ hd)
      · exact hold c ds hloc hd

end

/-- The port runtime is in order at boot. -/
theorem Wf.init {s : Machine n δ} (h : Init s) : s.Wf := by
  obtain ⟨hidle, hports, -, -, -, haccepted, hdelivered, -⟩ := h
  have hunused : ∀ id, s.Unused id := fun id =>
    ⟨hports id, haccepted id, hdelivered id, fun c => by rw [hidle c]; rfl⟩
  refine ⟨fun id p hp => ?_, fun id p hp => ?_, fun id _ => hunused id,
    fun c id owner kind hloc => ?_, fun c d id owner owner' kind kind' hc _ => ?_,
    fun c ds d p hloc _ _ => ?_⟩
  · rw [hports] at hp
    cases hp
  · rw [hports] at hp
    cases hp
  · rw [hidle] at hloc
    cases hloc
  · rw [hidle] at hc
    cases hc
  · rw [hidle] at hloc
    cases hloc

end Machine

end Yggdrasil.Ports
