import Yggdrasil.Sched.Links

/-!
# Histories and monitor references

A history records along a run which messages were put in mailboxes, with which reason
processes were reaped, and which calls of `monitor` returned. Every reference is in at
most one place: held by a core, left for a spawn, registered on a process, or sent in a
`DOWN` message. Steps only move references on.
-/

namespace Yggdrasil.Sched

variable {n : ℕ} {μ : Type}

/-- The reference of a `DOWN` message. -/
def Fragment.ref? : Fragment μ → Option ℕ
  | .sent _ => none
  | .down ref _ _ => some ref

/-- A call of `monitor` that returned. -/
structure MonitorCall where
  /-- The reference returned. -/
  ref : ℕ
  /-- The calling process. -/
  watcher : ℕ
  /-- The process watched. -/
  target : ℕ
  /-- Whether the process watched was dead or gone at the call. -/
  gone : Bool
  deriving DecidableEq, Repr

namespace Machine

/-- The mailbox of a process; processes not in the table have none. -/
def mailboxOf (s : Machine n μ) (w : ℕ) : List (Fragment μ) :=
  ((s.table w).map Process.mailbox).getD []

/-- A process is dead or gone. -/
def gone (s : Machine n μ) (pid : ℕ) : Bool :=
  (s.table pid).all fun p => p.state = .dead

/-- What a step put in a mailbox. Messages are put at the end, and no step both takes
a message and puts one. -/
def puts (s s' : Machine n μ) (w : ℕ) : List (Fragment μ) :=
  (s'.mailboxOf w).drop (s.mailboxOf w).length

/-- Core `c` returns from a call of `monitor`. -/
def Returns (s s' : Machine n μ) (call : MonitorCall) : Prop :=
  call.gone = s.gone call.target ∧
    ∃ c, s.locs c = .exec call.watcher (.monitor call.target call.ref) ∧
      s'.locs c = .exec call.watcher .body

end Machine

/-- What happened in a run. -/
structure History (μ : Type) where
  /-- The messages put in the mailbox of each process so far. -/
  delivered : ℕ → List (Fragment μ)
  /-- The reasons of the processes reaped so far. -/
  exits : ℕ → Option String
  /-- The calls of `monitor` that returned so far. -/
  calls : Set MonitorCall

namespace History

/-- Nothing happened yet. -/
def empty : History μ := ⟨fun _ => [], fun _ => none, ∅⟩

/-- The history after a step. -/
def after (s s' : Machine n μ) (h : History μ) : History μ where
  delivered w := h.delivered w ++ s.puts s' w
  exits pid :=
    match s.table pid, s'.table pid with
    | some p, none => some p.exitReason
    | _, _ => h.exits pid
  calls := h.calls ∪ {call | s.Returns s' call}

end History

/-- A step of a machine that makes steps `R`, with its history. -/
inductive RecordedStep (R : Machine n μ → Machine n μ → Prop) :
    Machine n μ × History μ → Machine n μ × History μ → Prop
  | step {s s' : Machine n μ} {h : History μ} : R s s' → RecordedStep R (s, h) (s', h.after s s')

/-- A machine that makes steps `R` can get to state `s` by a run with history `h`. -/
def Recorded (R : Machine n μ → Machine n μ → Prop) (s : Machine n μ) (h : History μ) : Prop :=
  Transition.Reaches (fun x : Machine n μ × History μ => Init x.1 ∧ x.2 = .empty) (RecordedStep R)
    (s, h)

/-- Every run has a history. -/
theorem exists_recorded {R : Machine n μ → Machine n μ → Prop} {s : Machine n μ}
    (hs : Transition.Reaches Init R s) : ∃ h, Recorded R s h := by
  induction hs with
  | init hinit => exact ⟨.empty, .init ⟨hinit, rfl⟩⟩
  | step _ hstep ih =>
    obtain ⟨h, hrec⟩ := ih
    exact ⟨_, hrec.step (.step hstep)⟩

/-- Where a reference may be. -/
inductive Place (n : ℕ) where
  | core (c : Fin n)
  | slot
  | entry (pid : ℕ)
  | box (w : ℕ)
  deriving DecidableEq

/-- The references in a place. -/
def refsAt (s : Machine n μ) (h : History μ) : Place n → List ℕ
  | .core c => (s.locs c).refs.map Prod.fst
  | .slot => s.monitorAtSpawn.toList.map Prod.fst
  | .entry pid => (((s.table pid).map Process.monitors).getD []).map Prod.fst
  | .box w => (h.delivered w).filterMap Fragment.ref?

/-- References are used once. -/
structure RefsOk (s : Machine n μ) (h : History μ) : Prop where
  /-- A reference is in one place. -/
  unique : ∀ r a b, r ∈ refsAt s h a → r ∈ refsAt s h b → a = b
  /-- It is there once. -/
  nodup : ∀ a, (refsAt s h a).Nodup
  /-- It was given out. -/
  lt : ∀ r a, r ∈ refsAt s h a → r < s.nextRef

/-- The references in place `a` after some moved from place `o` to the places given by
`dest` and others vanished. -/
private def Moved (old new : Place n → List ℕ) (o : Option (Place n)) (dest : ℕ → Place n)
    (a : Place n) : Prop :=
  ∃ kept add, new a = kept ++ add ∧ (kept = old a ∧ o ≠ some a ∨ kept = []) ∧
    add.Sublist ((o.map old).getD []) ∧ ∀ r ∈ add, dest r = a

section Moved

variable {old new : Place n → List ℕ} {o : Option (Place n)} {dest : ℕ → Place n} {a : Place n}

private theorem Moved.same (h : new a = old a) (ho : o ≠ some a) : Moved old new o dest a :=
  ⟨old a, [], by rw [h, List.append_nil], .inl ⟨rfl, ho⟩, List.nil_sublist _, by simp⟩

private theorem Moved.vanish (h : new a = []) : Moved old new o dest a :=
  ⟨[], [], h, .inr rfl, List.nil_sublist _, by simp⟩

/-- References that move or vanish are still used once. -/
private theorem RefsOk.move {s s' : Machine n μ} {h h' : History μ} (hok : RefsOk s h)
    (hnext : s'.nextRef = s.nextRef) (o : Option (Place n)) (dest : ℕ → Place n)
    (hmove : ∀ a, Moved (refsAt s h) (refsAt s' h') o dest a) : RefsOk s' h' := by
  -- a reference stays where it was, or comes from `o`
  have hsource : ∀ r a, r ∈ refsAt s' h' a → (r ∈ refsAt s h a ∧ o ≠ some a) ∨
      ∃ b, o = some b ∧ r ∈ refsAt s h b ∧ dest r = a := by
    intro r a hr
    obtain ⟨kept, add, heq, hkept, hadd, hdest⟩ := hmove a
    rw [heq] at hr
    rcases List.mem_append.mp hr with hr' | hr'
    · rcases hkept with ⟨rfl, hne⟩ | rfl
      · exact .inl ⟨hr', hne⟩
      · cases hr'
    · cases o with
      | none => cases hadd.subset hr'
      | some b => exact .inr ⟨b, rfl, hadd.subset hr', hdest r hr'⟩
  refine ⟨fun r a b ha hb => ?_, fun a => ?_, fun r a ha => ?_⟩
  · rcases hsource r a ha with ⟨ha', hna⟩ | ⟨d, ho, hd, hda⟩
    · rcases hsource r b hb with ⟨hb', -⟩ | ⟨d, ho, hd, -⟩
      · exact hok.unique r a b ha' hb'
      · exact absurd (hok.unique r d a hd ha' ▸ ho) hna
    · rcases hsource r b hb with ⟨hb', hnb⟩ | ⟨-, -, -, hdb⟩
      · exact absurd (hok.unique r d b hd hb' ▸ ho) hnb
      · rw [← hda, hdb]
  · obtain ⟨kept, add, heq, hkept, hadd, -⟩ := hmove a
    have hsub : kept.Sublist (refsAt s h a) := by
      rcases hkept with ⟨rfl, -⟩ | rfl
      · exact .refl _
      · exact List.nil_sublist _
    rw [heq, List.nodup_append']
    cases o with
    | none =>
      rw [List.sublist_nil.mp hadd]
      exact ⟨hsub.nodup (hok.nodup a), List.nodup_nil, by simp⟩
    | some b =>
      refine ⟨hsub.nodup (hok.nodup a), hadd.nodup (hok.nodup b), fun r hr hr' => ?_⟩
      have hab := hok.unique r b a (hadd.subset hr') (hsub.subset hr)
      rcases hkept with ⟨-, hne⟩ | rfl
      · exact hne (congrArg some hab)
      · cases hr
  · rw [hnext]
    rcases hsource r a ha with ⟨ha', -⟩ | ⟨d, -, hd, -⟩
    · exact hok.lt r a ha'
    · exact hok.lt r d hd

end Moved

section Puts

variable {s s' : Machine n μ} {w : ℕ}

/-- An unchanged process gets nothing. -/
theorem puts_of_table_eq (h : s'.table w = s.table w) : s.puts s' w = [] := by
  rw [Machine.puts, Machine.mailboxOf, Machine.mailboxOf, h, List.drop_length]

/-- A process that leaves the table gets nothing. -/
theorem puts_of_none (h : s'.table w = none) : s.puts s' w = [] := by
  have hnew : s'.mailboxOf w = [] := by
    rw [Machine.mailboxOf, h]
    rfl
  rw [Machine.puts, hnew, List.drop_nil]

/-- A process gets what its mailbox grows by. -/
theorem puts_of_append {p p' : Process μ} {fs : List (Fragment μ)} (hp : s.table w = some p)
    (hp' : s'.table w = some p') (hmailbox : p'.mailbox = p.mailbox ++ fs) : s.puts s' w = fs := by
  have hold : s.mailboxOf w = p.mailbox := by rw [Machine.mailboxOf, hp]; rfl
  have hnew : s'.mailboxOf w = p.mailbox ++ fs := by
    rw [Machine.mailboxOf, hp']
    exact hmailbox
  rw [Machine.puts, hold, hnew, List.drop_left]

/-- Local changes put no `DOWN` message. -/
theorem puts_of_locally (h : Option.Rel Process.Locally (s.table w) (s'.table w)) :
    (s.puts s' w).filterMap Fragment.ref? = [] := by
  generalize hold : s.table w = o at h
  generalize hnew : s'.table w = o' at h
  cases h with
  | none => rw [puts_of_none hnew, List.filterMap_nil]
  | some hlocally =>
    rw [Machine.puts, Machine.mailboxOf, Machine.mailboxOf, hold, hnew]
    refine List.filterMap_eq_nil_iff.mpr fun f hf => ?_
    obtain ⟨msg, rfl⟩ := hlocally.sent f hf
    rfl

/-- A new child has an empty mailbox, and its parent gets a link. -/
theorem puts_of_insert {child parent : ℕ} {link : Bool} {x : Process μ} (hx : x.mailbox = [])
    (htable : ∀ q, s'.table q = if q = child then some x
      else if link = true ∧ q = parent then (s.table q).map (.link child) else s.table q) :
    s.puts s' w = [] := by
  have hw := htable w
  by_cases hchild : w = child
  · rw [if_pos hchild] at hw
    have hnew : s'.mailboxOf w = [] := by
      rw [Machine.mailboxOf, hw]
      exact hx
    rw [Machine.puts, hnew, List.drop_nil]
  · rw [if_neg hchild] at hw
    split at hw
    · cases hp : s.table w with
      | none => exact puts_of_none (by rw [hw, hp]; rfl)
      | some p =>
        rw [hp] at hw
        exact puts_of_append hp hw (List.append_nil _).symm
    · exact puts_of_table_eq hw

/-- A registered monitor is no message. -/
theorem puts_of_register {target : ℕ} {p : Process μ} {m : ℕ × ℕ} (hp : s.table target = some p)
    (htable : s'.table = Function.update s.table target (some (p.watch m))) :
    s.puts s' w = [] := by
  by_cases hw : w = target
  · subst hw
    have hp' : s'.table w = some (p.watch m) := by rw [htable, Function.update_self]
    exact puts_of_append hp hp' (List.append_nil _).symm
  · exact puts_of_table_eq (by rw [htable, Function.update_of_ne hw])

/-- A message is put in one mailbox. -/
theorem puts_of_receive {dest : ℕ} {fs : List (Fragment μ)} (htable : ∀ q, s'.table q =
    if q = dest then (s.table q).map (.receive fs) else s.table q) :
    s.puts s' w =
      if w = dest ∧ ∃ x, s.table w = some x ∧ x.state ≠ .dead then fs else [] := by
  have hw := htable w
  by_cases hdest : w = dest
  · rw [if_pos hdest] at hw
    cases hx : s.table w with
    | none => rw [puts_of_none (by rw [hw, hx]; rfl), if_neg (by simp)]
    | some x =>
      rw [hx] at hw
      rw [puts_of_append hx hw (Process.receive_mailbox fs)]
      by_cases hdead : x.state = .dead <;> simp [hdest, hdead]
  · rw [if_neg hdest] at hw
    rw [puts_of_table_eq hw, if_neg (by simp [hdest])]

/-- What reaping puts in a mailbox. -/
theorem puts_of_reap {pid : ℕ} {p : Process μ} (htable : ∀ q, s'.table q =
    if q = pid then none else (s.table q).map (Machine.aftermath pid p q)) :
    s.puts s' w = if w ≠ pid ∧ ∃ x, s.table w = some x ∧ x.state ≠ .dead then
      Machine.downs pid p.exitReason p.monitors w else [] := by
  have hw := htable w
  by_cases hpid : w = pid
  · rw [if_pos hpid] at hw
    rw [puts_of_none hw, if_neg (by simp [hpid])]
  · rw [if_neg hpid] at hw
    cases hx : s.table w with
    | none => rw [puts_of_none (by rw [hw, hx]; rfl), if_neg (by simp)]
    | some x =>
      rw [hx] at hw
      rw [puts_of_append hx hw (Machine.aftermath_mailbox w)]
      by_cases hdead : x.state = .dead <;> simp [hpid, hdead]

end Puts

section Step

open Machine

variable {s s' : Machine n μ} {h : History μ}

/-- The references sent after a step. -/
theorem refsAt_box (w : ℕ) : refsAt s' (h.after s s') (.box w) =
    refsAt s h (.box w) ++ (s.puts s' w).filterMap Fragment.ref? :=
  List.filterMap_append ..

/-- A core that goes on quietly holds no reference. -/
theorem Loc.Goes.refs {l l' : Loc} (hgoes : l.Goes l') : l'.refs = [] := by
  unfold Loc.Goes at hgoes
  split at hgoes
  · rcases hgoes with ⟨child, rfl⟩ | rfl <;> rfl
  · subst hgoes
    rfl
  all_goals first | rfl | exact hgoes.elim | skip
  unfold Loc.refs
  split <;> grind

private theorem refsAt_core {c : Fin n} {l : Loc} (hlocs : s'.locs = Function.update s.locs c l)
    (d : Fin n) (h' : History μ) : refsAt s' h' (.core d) =
      if d = c then l.refs.map Prod.fst else refsAt s h (.core d) := by
  rw [refsAt, hlocs, Function.update_apply]
  split <;> rfl

private theorem refsAt_slot (h' : History μ) (heq : s'.monitorAtSpawn = s.monitorAtSpawn) :
    refsAt s' h' .slot = refsAt s h .slot := by
  rw [refsAt, heq, refsAt]

private theorem refsAt_entry {pid : ℕ} (h' : History μ)
    (heq : (s'.table pid).map Process.monitors = (s.table pid).map Process.monitors) :
    refsAt s' h' (.entry pid) = refsAt s h (.entry pid) := by
  rw [refsAt, heq, refsAt]

private theorem refsAt_box_of_table (w : ℕ) (heq : s'.table w = s.table w) :
    refsAt s' (h.after s s') (.box w) = refsAt s h (.box w) := by
  rw [refsAt_box, puts_of_table_eq heq, List.filterMap_nil, List.append_nil]

/-- A core that lets go of its references; the others keep theirs. -/
private theorem moved_core {c : Fin n} {l : Loc} {o : Option (Place n)} {dest : ℕ → Place n}
    (hlocs : s'.locs = Function.update s.locs c l) (hrefs : l.refs = [])
    (ho : ∀ d, d ≠ c → o ≠ some (.core d)) (d : Fin n) :
    Moved (refsAt s h) (refsAt s' (h.after s s')) o dest (.core d) := by
  have hcore := @refsAt_core n μ s s' h c l hlocs d (h.after s s')
  by_cases hd : d = c
  · rw [if_pos hd, hrefs] at hcore
    exact .vanish hcore
  · rw [if_neg hd] at hcore
    exact .same hcore (ho d hd)

/-- A quiet step keeps references where they are, or drops those a core held. -/
private theorem RefsOk.quiet (hok : RefsOk s h) (hslot : s'.refSlot = s.refSlot)
    (hlocs : s'.locs = s.locs ∨ ∃ c l, s'.locs = Function.update s.locs c l ∧ (s.locs c).Goes l)
    (htable : ∀ q, Option.Rel Process.Locally (s.table q) (s'.table q)) :
    RefsOk s' (h.after s s') := by
  refine hok.move (congrArg Prod.snd hslot) none (fun _ => .slot) fun a => ?_
  cases a with
  | core d =>
    rcases hlocs with heq | ⟨c, l, heq, hgoes⟩
    · exact .same (by rw [refsAt, heq, refsAt]) nofun
    · exact moved_core heq hgoes.refs (by simp) d
  | slot => exact .same (refsAt_slot _ (congrArg Prod.fst hslot)) nofun
  | entry pid =>
    refine .same (refsAt_entry _ ?_) nofun
    have hrel := htable pid
    generalize s.table pid = o at hrel
    generalize s'.table pid = o' at hrel
    cases hrel with
    | none => rfl
    | some hlocally => simp [hlocally.monitors]
  | box w => exact .same (by rw [refsAt_box, puts_of_locally (htable w), List.append_nil]) nofun

/-- A reference that is given out is in no place yet. -/
private theorem RefsOk.alloc (hok : RefsOk s h) {c : Fin n} {l : Loc} {w : ℕ}
    (hl : l.refs = [(s.nextRef, w)]) (hslot : s'.refSlot = (s.monitorAtSpawn, s.nextRef + 1))
    (hlocs : s'.locs = Function.update s.locs c l) (htable : s'.table = s.table) :
    RefsOk s' (h.after s s') := by
  have hnext : s'.nextRef = s.nextRef + 1 := congrArg Prod.snd hslot
  have hat : ∀ a, refsAt s' (h.after s s') a =
      if a = .core c then [s.nextRef] else refsAt s h a := by
    intro a
    cases a with
    | core d =>
      rw [@refsAt_core n μ s s' h c l hlocs d]
      by_cases hd : d = c
      · rw [if_pos hd, if_pos (by rw [hd]), hl]
        rfl
      · rw [if_neg hd, if_neg (by simpa using hd)]
    | slot => rw [if_neg nofun, refsAt_slot _ (congrArg Prod.fst hslot)]
    | entry pid =>
      rw [if_neg nofun]
      exact refsAt_entry _ (by rw [htable])
    | box w => rw [if_neg nofun, refsAt_box_of_table w (by rw [htable])]
  have hold : ∀ r a, r ∈ refsAt s' (h.after s s') a →
      (r = s.nextRef ∧ a = .core c) ∨ r ∈ refsAt s h a := by
    intro r a hr
    rw [hat] at hr
    split at hr
    · exact .inl ⟨List.mem_singleton.mp hr, ‹_›⟩
    · exact .inr hr
  refine ⟨fun r a b ha hb => ?_, fun a => ?_, fun r a ha => ?_⟩
  · rcases hold r a ha with ⟨hr, rfl⟩ | ha'
    · rcases hold r b hb with ⟨-, rfl⟩ | hb'
      · rfl
      · have hlt := hok.lt r b hb'
        omega
    · rcases hold r b hb with ⟨hr, -⟩ | hb'
      · have hlt := hok.lt r a ha'
        omega
      · exact hok.unique r a b ha' hb'
  · rw [hat]
    split
    · exact List.nodup_singleton _
    · exact hok.nodup a
  · rcases hold r a ha with ⟨rfl, -⟩ | ha'
    · omega
    · have hlt := hok.lt r a ha'
      omega

/-- The references of the messages for a watcher. -/
theorem downs_ref? (dead : ℕ) (reason : String) (ms : List (ℕ × ℕ)) (q : ℕ) :
    (downs dead reason ms q : List (Fragment μ)).filterMap Fragment.ref? =
      (ms.filter fun m => m.2 = q).map Prod.fst := by
  rw [downs, List.filterMap_map, ← List.filterMap_eq_map]
  rfl

/-- The watcher a reference was registered for. -/
private def watcherOf (ms : List (ℕ × ℕ)) (r : ℕ) : ℕ :=
  ((ms.find? fun m => m.1 = r).map Prod.snd).getD 0

private theorem watcherOf_eq {ms : List (ℕ × ℕ)} (hms : (ms.map Prod.fst).Nodup) {r w : ℕ}
    (hm : (r, w) ∈ ms) : watcherOf ms r = w := by
  have hfind : ms.find? (fun m => m.1 = r) = some (r, w) := by
    induction ms with
    | nil => cases hm
    | cons m ms ih =>
      rw [List.map_cons, List.nodup_cons] at hms
      rcases List.mem_cons.mp hm with rfl | hm'
      · simp
      · have hne : m.1 ≠ r := by
          rintro rfl
          exact hms.1 (List.mem_map.mpr ⟨_, hm', rfl⟩)
        rw [List.find?_cons_of_neg (by simpa using hne)]
        exact ih hms.2 hm'
  rw [watcherOf, hfind]
  rfl

/-- A step keeps references used once. -/
theorem RefsOk.step (hinv : s.Inv) (hok : RefsOk s h) (hstep : Step s s') :
    RefsOk s' (h.after s s') := by
  cases hstep.effect hinv with
  | quiet hslot hlocs htable => exact hok.quiet hslot hlocs htable
  | alloc c w pos hloc hpos hslot hlocs htable =>
    refine hok.alloc (w := w) ?_ hslot hlocs htable
    rcases hpos with rfl | ⟨target, rfl⟩ <;> rfl
  | leave c w r hloc hslot hlocs htable =>
    have hheld : refsAt s h (.core c) = [r] := by rw [refsAt, hloc]; rfl
    refine hok.move (congrArg Prod.snd hslot) (some (.core c)) (fun _ => .slot) fun a => ?_
    cases a with
    | core d => exact moved_core hlocs rfl (fun e he => by simpa using Ne.symm he) d
    | slot =>
      have heq : s'.monitorAtSpawn = some (r, w) := congrArg Prod.fst hslot
      refine ⟨[], [r], by rw [refsAt, heq]; rfl, .inr rfl, ?_, by simp⟩
      rw [Option.map_some, Option.getD_some, hheld]
    | entry pid => exact .same (refsAt_entry _ (by rw [htable])) nofun
    | box v => exact .same (refsAt_box_of_table v (by rw [htable])) nofun
  | pick c w child link ref hloc hslot hlocs htable =>
    refine hok.move (congrArg Prod.snd hslot) (some .slot) (fun _ => .core c) fun a => ?_
    cases a with
    | core d =>
      have hcore := @refsAt_core n μ s s' h c _ hlocs d (h.after s s')
      by_cases hd : d = c
      · rw [if_pos hd] at hcore
        exact ⟨[], _, hcore, .inr rfl, .refl _, fun _ _ => by rw [hd]⟩
      · rw [if_neg hd] at hcore
        exact .same hcore nofun
    | slot =>
      have heq : s'.monitorAtSpawn = none := congrArg Prod.fst hslot
      exact .vanish (by rw [refsAt, heq]; rfl)
    | entry pid => exact .same (refsAt_entry _ (by rw [htable])) nofun
    | box v => exact .same (refsAt_box_of_table v (by rw [htable])) nofun
  | insert c w child link ref ms hloc hslot hlocs hfree htable =>
    have hheld : refsAt s h (.core c) = ms.map Prod.fst := by rw [refsAt, hloc]; rfl
    refine hok.move (congrArg Prod.snd hslot) (some (.core c)) (fun _ => .entry child) fun a => ?_
    cases a with
    | core d => exact moved_core hlocs rfl (fun e he => by simpa using Ne.symm he) d
    | slot => exact .same (refsAt_slot _ (congrArg Prod.fst hslot)) nofun
    | entry pid =>
      by_cases hpid : pid = child
      · subst hpid
        refine ⟨[], ms.map Prod.fst, ?_, .inr rfl, ?_, fun _ _ => rfl⟩
        · rw [refsAt, htable, if_pos rfl]
          rfl
        · rw [Option.map_some, Option.getD_some, hheld]
      · refine .same (refsAt_entry _ ?_) nofun
        rw [htable, if_neg hpid]
        split
        · rw [Option.map_map]
          rfl
        · rfl
    | box v =>
      refine .same ?_ nofun
      rw [refsAt_box, puts_of_insert rfl htable, List.filterMap_nil, List.append_nil]
  | register c w target r p hloc hslot hlocs hp halive htable =>
    have hheld : refsAt s h (.core c) = [r] := by rw [refsAt, hloc]; rfl
    refine hok.move (congrArg Prod.snd hslot) (some (.core c)) (fun _ => .entry target) fun a => ?_
    cases a with
    | core d => exact moved_core hlocs rfl (fun e he => by simpa using Ne.symm he) d
    | slot => exact .same (refsAt_slot _ (congrArg Prod.fst hslot)) nofun
    | entry pid =>
      by_cases hpid : pid = target
      · subst hpid
        refine ⟨_, [r], ?_, .inl ⟨rfl, nofun⟩, ?_, fun _ _ => rfl⟩
        · rw [refsAt, refsAt, htable, Function.update_self, hp]
          simp [Process.watch]
        · rw [Option.map_some, Option.getD_some, hheld]
      · exact .same (refsAt_entry _ (by rw [htable, Function.update_of_ne hpid])) nofun
    | box v =>
      refine .same ?_ nofun
      rw [refsAt_box, puts_of_register hp htable, List.filterMap_nil, List.append_nil]
  | noproc c w target r hloc hslot hlocs hgone htable =>
    have hheld : refsAt s h (.core c) = [r] := by rw [refsAt, hloc]; rfl
    refine hok.move (congrArg Prod.snd hslot) (some (.core c)) (fun _ => .box w) fun a => ?_
    cases a with
    | core d => exact moved_core hlocs rfl (fun e he => by simpa using Ne.symm he) d
    | slot => exact .same (refsAt_slot _ (congrArg Prod.fst hslot)) nofun
    | entry pid =>
      refine .same (refsAt_entry _ ?_) nofun
      rw [htable]
      split
      · rw [Option.map_map]
        congr 1
        funext x
        simp
      · rfl
    | box v =>
      refine ⟨_, (s.puts s' v).filterMap Fragment.ref?, refsAt_box v, .inl ⟨rfl, nofun⟩, ?_, ?_⟩
      · rw [Option.map_some, Option.getD_some, hheld, puts_of_receive htable]
        split
        · exact .refl _
        · exact List.nil_sublist _
      · intro r' hr'
        rw [puts_of_receive htable] at hr'
        split at hr'
        · rename_i hv
          rw [hv.1]
        · cases hr'
  | reap c pid p hslot hloc hlocs hp hreaped htable =>
    have hheld : refsAt s h (.entry pid) = p.monitors.map Prod.fst := by rw [refsAt, hp]; rfl
    refine hok.move (congrArg Prod.snd hslot) (some (.entry pid))
      (fun r => .box (watcherOf p.monitors r)) fun a => ?_
    cases a with
    | core d => exact moved_core hlocs rfl (by simp) d
    | slot => exact .same (refsAt_slot _ (congrArg Prod.fst hslot)) nofun
    | entry q =>
      by_cases hq : q = pid
      · subst hq
        refine .vanish ?_
        rw [refsAt, htable, if_pos rfl]
        rfl
      · refine .same (refsAt_entry _ ?_) (by simpa using Ne.symm hq)
        rw [htable, if_neg hq, Option.map_map]
        congr 1
        funext x
        exact aftermath_monitors q
    | box v =>
      refine ⟨_, (s.puts s' v).filterMap Fragment.ref?, refsAt_box v, .inl ⟨rfl, nofun⟩, ?_, ?_⟩
      · rw [Option.map_some, Option.getD_some, hheld, puts_of_reap htable]
        split
        · rw [downs_ref?]
          exact List.filter_sublist.map _
        · exact List.nil_sublist _
      · intro r hr
        rw [puts_of_reap htable] at hr
        split at hr
        · rw [downs_ref?, List.mem_map] at hr
          obtain ⟨⟨r', w⟩, hm, rfl⟩ := hr
          rw [List.mem_filter, decide_eq_true_eq] at hm
          have hwatcher := watcherOf_eq (hheld ▸ hok.nodup (.entry pid)) hm.1
          exact congrArg Place.box (hwatcher.trans hm.2)
        · cases hr

end Step

end Yggdrasil.Sched
