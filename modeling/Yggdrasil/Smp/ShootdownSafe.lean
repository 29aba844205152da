import Yggdrasil.Smp.Shootdown

/-!
# The shootdown is safe

The invariant of `Shootdown`, part by part: who holds the lock, where the slots are, what
the page table and the calls say of the frames, which messages are under way, and what the
caches hold.
-/

namespace Yggdrasil

namespace Shootdown

variable {n : ℕ} {s s' : Machine n} {c : Fin n} {loc loc' : Loc}

/-! ### The lock -/

private theorem locked_step (h : ∀ c, (s.core c).Locked → s.mapper = some c)
    (hs : Step s s') : ∀ c, (s'.core c).Locked → s'.mapper = some c := by
  cases hs <;> grind [Loc.Locked, Function.update_apply]

private theorem Inv.locked_unique (h : Inv s) {d : Fin n} (hc : (s.core c).Locked)
    (hd : (s.core d).Locked) : c = d := by
  have heq := (h.mapper c hc).symm.trans (h.mapper d hd)
  exact Option.some.inj heq

private theorem Loc.Waits.locked (h : loc.Waits) : loc.Locked := by
  cases loc <;> first | exact h.elim | trivial

private theorem Loc.Reset.locked (h : loc.Reset) : loc.Locked := by
  cases loc <;> first | exact h.elim | trivial

private theorem Loc.Returned.locked (h : loc.Returned) : loc.Locked := by
  cases loc <;> first | exact h.elim | trivial

/-! ### Slots -/

section Slots

variable {next t : ℕ} {freed owned : List ℕ} {slot : Fin n → Option ℕ}

/-- A slot that was handed out and is in nobody's hands. -/
private def Loose (next : ℕ) (freed owned : List ℕ) (slot : Fin n → Option ℕ) (t : ℕ) : Prop :=
  t < next ∧ t ∉ owned ∧ t ∉ freed ∧ ∀ d, slot d ≠ some t

private theorem Slots.takeFreed (h : Slots next (t :: freed) owned slot) :
    Slots next freed owned slot ∧ Loose next freed owned slot t := by
  have hnd := List.nodup_cons.1 h.freed_nodup
  refine ⟨⟨h.owned_nodup, hnd.2, ?_, h.owned_lt, ?_, h.call_lt, ?_, h.call_inj⟩,
    h.freed_lt t List.mem_cons_self, ?_, hnd.1, ?_⟩
  · exact fun u hu huf => h.owned_notMem u hu (List.mem_cons_of_mem t huf)
  · exact fun u hu => h.freed_lt u (List.mem_cons_of_mem t hu)
  · intro d u hd
    obtain ⟨ho, hf⟩ := h.call_notMem d u hd
    exact ⟨ho, fun huf => hf (List.mem_cons_of_mem t huf)⟩
  · exact fun ht => h.owned_notMem t ht List.mem_cons_self
  · exact fun d hd => (h.call_notMem d t hd).2 List.mem_cons_self

private theorem Slots.takeNew (h : Slots next freed owned slot) :
    Slots (next + 1) freed owned slot ∧ Loose (next + 1) freed owned slot next := by
  refine ⟨⟨h.owned_nodup, h.freed_nodup, h.owned_notMem, ?_, ?_, ?_, h.call_notMem,
    h.call_inj⟩, Nat.lt_succ_self next, ?_, ?_, ?_⟩
  · exact fun u hu => Nat.lt_succ_of_lt (h.owned_lt u hu)
  · exact fun u hu => Nat.lt_succ_of_lt (h.freed_lt u hu)
  · exact fun d u hd => Nat.lt_succ_of_lt (h.call_lt d u hd)
  · exact fun hn => Nat.lt_irrefl next (h.owned_lt next hn)
  · exact fun hn => Nat.lt_irrefl next (h.freed_lt next hn)
  · exact fun d hd => Nat.lt_irrefl next (h.call_lt d next hd)

private theorem Slots.takeOwned (h : Slots next freed owned slot) (ht : t ∈ owned) :
    Slots next freed (owned.erase t) slot ∧ Loose next freed (owned.erase t) slot t := by
  refine ⟨⟨h.owned_nodup.erase t, h.freed_nodup, ?_, ?_, h.freed_lt, h.call_lt, ?_,
    h.call_inj⟩, h.owned_lt t ht, ?_, h.owned_notMem t ht, ?_⟩
  · exact fun u hu => h.owned_notMem u (List.mem_of_mem_erase hu)
  · exact fun u hu => h.owned_lt u (List.mem_of_mem_erase hu)
  · intro d u hd
    obtain ⟨ho, hf⟩ := h.call_notMem d u hd
    exact ⟨fun hu => ho (List.mem_of_mem_erase hu), hf⟩
  · exact h.owned_nodup.not_mem_erase
  · exact fun d hd => (h.call_notMem d t hd).1 ht

private theorem Slots.takeCall (h : Slots next freed owned slot) (hc : slot c = some t) :
    Slots next freed owned (Function.update slot c none) ∧
      Loose next freed owned (Function.update slot c none) t := by
  have hold : ∀ d u, Function.update slot c none d = some u → d ≠ c ∧ slot d = some u := by
    intro d u hd
    rcases eq_or_ne d c with rfl | hdc
    · rw [Function.update_self] at hd
      cases hd
    · rw [Function.update_of_ne hdc] at hd
      exact ⟨hdc, hd⟩
  obtain ⟨ho, hf⟩ := h.call_notMem c t hc
  refine ⟨⟨h.owned_nodup, h.freed_nodup, h.owned_notMem, h.owned_lt, h.freed_lt, ?_, ?_, ?_⟩,
    h.call_lt c t hc, ho, hf, ?_⟩
  · exact fun d u hd => h.call_lt d u (hold d u hd).2
  · exact fun d u hd => h.call_notMem d u (hold d u hd).2
  · exact fun d e u hd he => h.call_inj d e u (hold d u hd).2 (hold e u he).2
  · intro d hd
    obtain ⟨hdc, hd⟩ := hold d t hd
    exact hdc (h.call_inj d c t hd hc)

private theorem Slots.giveCall (h : Slots next freed owned slot)
    (ht : Loose next freed owned slot t) :
    Slots next freed owned (Function.update slot c (some t)) := by
  obtain ⟨hlt, ho, hf, hcall⟩ := ht
  have hold : ∀ d u, Function.update slot c (some t) d = some u →
      (d = c ∧ u = t) ∨ slot d = some u := by
    intro d u hd
    rcases eq_or_ne d c with rfl | hdc
    · rw [Function.update_self] at hd
      exact .inl ⟨rfl, (Option.some.inj hd).symm⟩
    · rw [Function.update_of_ne hdc] at hd
      exact .inr hd
  refine ⟨h.owned_nodup, h.freed_nodup, h.owned_notMem, h.owned_lt, h.freed_lt, ?_, ?_, ?_⟩
  · intro d u hd
    rcases hold d u hd with ⟨-, rfl⟩ | hd
    · exact hlt
    · exact h.call_lt d u hd
  · intro d u hd
    rcases hold d u hd with ⟨-, rfl⟩ | hd
    · exact ⟨ho, hf⟩
    · exact h.call_notMem d u hd
  · intro d e u hd he
    rcases hold d u hd with ⟨hdc, hdu⟩ | hd' <;> rcases hold e u he with ⟨hec, heu⟩ | he'
    · rw [hdc, hec]
    · exact absurd (hdu ▸ he') (hcall e)
    · exact absurd (heu ▸ hd') (hcall d)
    · exact h.call_inj d e u hd' he'

private theorem Slots.giveOwned (h : Slots next freed owned slot)
    (ht : Loose next freed owned slot t) : Slots next freed (t :: owned) slot := by
  obtain ⟨hlt, ho, hf, hcall⟩ := ht
  refine ⟨List.nodup_cons.2 ⟨ho, h.owned_nodup⟩, h.freed_nodup, ?_, ?_, h.freed_lt, h.call_lt,
    ?_, h.call_inj⟩
  · exact List.forall_mem_cons.2 ⟨hf, h.owned_notMem⟩
  · exact List.forall_mem_cons.2 ⟨hlt, h.owned_lt⟩
  · intro d u hd
    obtain ⟨hdo, hdf⟩ := h.call_notMem d u hd
    refine ⟨fun hu => ?_, hdf⟩
    rcases List.mem_cons.1 hu with rfl | hu
    · exact hcall d hd
    · exact hdo hu

private theorem Slots.giveFreed (h : Slots next freed owned slot)
    (ht : Loose next freed owned slot t) : Slots next (t :: freed) owned slot := by
  obtain ⟨hlt, ho, hf, hcall⟩ := ht
  refine ⟨h.owned_nodup, List.nodup_cons.2 ⟨hf, h.freed_nodup⟩, ?_, h.owned_lt, ?_, h.call_lt,
    ?_, h.call_inj⟩
  · intro u hu huf
    rcases List.mem_cons.1 huf with rfl | huf
    · exact ho hu
    · exact h.owned_notMem u hu huf
  · exact List.forall_mem_cons.2 ⟨hlt, h.freed_lt⟩
  · intro d u hd
    obtain ⟨hdo, hdf⟩ := h.call_notMem d u hd
    refine ⟨hdo, fun hu => ?_⟩
    rcases List.mem_cons.1 hu with rfl | hu
    · exact hcall d hd
    · exact hdf hu

end Slots

private theorem slot_update (core : Fin n → Loc) (c : Fin n) (loc : Loc) :
    (fun d => (Function.update core c loc d).slot) =
      Function.update (fun d => (core d).slot) c loc.slot :=
  Function.comp_update Loc.slot core c loc

private theorem slot_move {core : Fin n → Loc} (h : loc.slot = (core c).slot) :
    (fun d => (Function.update core c loc d).slot) = fun d => (core d).slot := by
  rw [slot_update, h]
  exact Function.update_eq_self c fun d => (core d).slot

private theorem slots_step (h : Slots s.next s.freed s.owned fun c => (s.core c).slot)
    (hs : Step s s') : Slots s'.next s'.freed s'.owned fun c => (s'.core c).slot := by
  cases hs
  case slotFreed c slot freed hc hfreed =>
    rw [hfreed] at h
    rw [slot_update]
    exact h.takeFreed.1.giveCall h.takeFreed.2
  case slotNew c hc hfreed hlt =>
    rw [slot_update]
    exact h.takeNew.1.giveCall h.takeNew.2
  case mapDone c slot span hc =>
    have htake := h.takeCall (c := c) (t := slot) (by simp only [hc, Loc.slot])
    rw [slot_update]
    exact htake.1.giveOwned htake.2
  case unmapCall c slot hc hmem =>
    rw [slot_update]
    exact (h.takeOwned hmem).1.giveCall (h.takeOwned hmem).2
  case freeSlot c slot frames hc =>
    have htake := h.takeCall (c := c) (t := slot) (by simp only [hc, Loc.slot])
    rw [slot_update]
    exact htake.1.giveFreed htake.2
  case reload | ack | cache | evict | otherTake | otherGive => exact h
  -- The other steps go on with the same call, or with none.
  all_goals
    rw [slot_move (by simp only [*, Loc.slot])]
    exact h

/-! ### Pages and frames -/

section Pages

variable {pages : ℕ → ℕ → Option ℕ} {use use' : ℕ → Use} {next : ℕ} {freed owned : List ℕ}
  {core : Fin n → Loc}

/-- A frame taken for a stack stays so. -/
private def Keeps (use use' : ℕ → Use) : Prop :=
  ∀ f t page, use f = .stack t page → use' f = .stack t page

private theorem keeps_update {f : ℕ} {u : Use} (h : ∀ t page, use f ≠ .stack t page) :
    Keeps use (Function.update use f u) := by
  intro g t page hg
  rcases eq_or_ne g f with rfl | hgf
  · exact absurd hg (h t page)
  · rw [Function.update_of_ne hgf]
    exact hg

private theorem keeps_take {t span : ℕ}
    (hfree : ∀ i < stackPages, use (span + i) = .free) :
    Keeps use fun f =>
      if span ≤ f ∧ f < span + stackPages then .stack t (f - span) else use f := by
  intro f u page hf
  have hout : ¬ (span ≤ f ∧ f < span + stackPages) := by
    rintro ⟨hle, hlt⟩
    have hthis := hfree (f - span) (by omega)
    rw [Nat.add_sub_cancel' hle, hf] at hthis
    cases hthis
  simp only [if_neg hout, hf]

private theorem setPage_self {t i : ℕ} {entry : Option ℕ} : setPage pages t i entry t i = entry :=
  if_pos ⟨rfl, rfl⟩

private theorem setPage_of_ne {t i u page : ℕ} {entry : Option ℕ} (h : ¬ (u = t ∧ page = i)) :
    setPage pages t i entry u page = pages u page :=
  if_neg h

private theorem setPage_none {t i u page : ℕ} (h : pages u page = none) :
    setPage pages t i none u page = none := by
  by_cases heq : u = t ∧ page = i
  · exact if_pos heq
  · rw [setPage_of_ne heq, h]

private theorem getElem?_snoc {frames : List ℕ} {f g page : ℕ}
    (h : (frames ++ [f])[page]? = some g) :
    (page = frames.length ∧ g = f) ∨ frames[page]? = some g := by
  rcases Nat.lt_trichotomy page frames.length with hlt | rfl | hgt
  · rw [List.getElem?_append_left hlt] at h
    exact .inr h
  · rw [List.getElem?_concat_length] at h
    exact .inl ⟨rfl, (Option.some.inj h).symm⟩
  · rw [List.getElem?_eq_none (by rw [List.length_append]; exact hgt)] at h
    cases h

private theorem CallOk.of_keeps (h : CallOk pages use loc) (hu : Keeps use use') :
    CallOk pages use' loc := by
  intro t ht
  exact ⟨(h t ht).1, fun page f hf => hu f t page ((h t ht).2 page f hf)⟩

private theorem CallOk.of_slot_none (h : loc.slot = none) : CallOk pages use loc := by
  intro t ht
  rw [h] at ht
  cases ht

private theorem CallOk.move (h : CallOk pages use loc) (hslot : loc'.slot = loc.slot)
    (hcleared : ∀ page, loc'.Cleared page → loc.Cleared page)
    (hholds : ∀ page f, loc'.Holds page f → loc.Holds page f) : CallOk pages use loc' := by
  intro t ht
  obtain ⟨hclear, hhold⟩ := h t (hslot ▸ ht)
  exact ⟨fun page hp => hclear page (hcleared page hp),
    fun page f hf => hhold page f (hholds page f hf)⟩

private theorem CallOk.setPage {t i : ℕ} {entry : Option ℕ} (h : CallOk pages use loc)
    (ht : loc.slot ≠ some t) : CallOk (setPage pages t i entry) use loc := by
  intro u hu
  have hut : u ≠ t := by
    rintro rfl
    exact ht hu
  refine ⟨fun page hp => ?_, (h u hu).2⟩
  rw [setPage_of_ne fun heq => hut heq.1]
  exact (h u hu).1 page hp

private theorem calls_update (hc : CallOk pages use loc) (h : ∀ d ≠ c, CallOk pages use (core d)) :
    ∀ d, CallOk pages use (Function.update core c loc d) :=
  (Function.forall_update_iff core (p := fun _ l => CallOk pages use l)).2 ⟨hc, h⟩

private theorem Pages.of_keeps (h : Pages pages use next freed core) (hu : Keeps use use') :
    Pages pages use' next freed core where
  unmapped := h.unmapped
  beyond := h.beyond
  used t page f hf := hu f t page (h.used t page f hf)
  calls d := (h.calls d).of_keeps hu

private theorem Pages.call (h : Pages pages use next freed core) (hc : CallOk pages use loc) :
    Pages pages use next freed (Function.update core c loc) :=
  { h with calls := calls_update hc fun d _ => h.calls d }

private theorem Pages.move (h : Pages pages use next freed core) (hc : core c = loc)
    (hslot : loc'.slot = loc.slot)
    (hcleared : ∀ page, loc'.Cleared page → loc.Cleared page)
    (hholds : ∀ page f, loc'.Holds page f → loc.Holds page f) :
    Pages pages use next freed (Function.update core c loc') := by
  subst hc
  exact h.call ((h.calls c).move hslot hcleared hholds)

private theorem Pages.takeFrames {t span : ℕ} (h : Pages pages use next freed core)
    (hc : core c = .mapSlot t) (hfree : ∀ i < stackPages, use (span + i) = .free) :
    Pages pages
      (fun f => if span ≤ f ∧ f < span + stackPages then .stack t (f - span) else use f)
      next freed (Function.update core c (.mapFrames t span)) := by
  have h' := h.of_keeps (keeps_take (t := t) hfree)
  refine h'.call fun u hu => ?_
  cases Option.some.inj hu
  have hcall := h'.calls c
  rw [hc] at hcall
  refine ⟨(hcall t rfl).1, ?_⟩
  rintro page f ⟨hlt, rfl⟩
  have hin : span ≤ span + page ∧ span + page < span + stackPages := by omega
  simp only [if_pos hin, Nat.add_sub_cancel_left]

private theorem Pages.mapPage {t span i : ℕ} (h : Pages pages use next freed core)
    (hk : Slots next freed owned fun c => (core c).slot)
    (hc : core c = .mapping t span i) (hi : i < stackPages) :
    Pages (setPage pages t i (some (span + i))) use next freed
      (Function.update core c (.mapping t span (i + 1))) := by
  have hslot : (core c).slot = some t := by rw [hc]; rfl
  have hcall := h.calls c t hslot
  rw [hc] at hcall
  refine ⟨fun u page hu => ?_, fun u page hpage => ?_, fun u page f hf => ?_,
    calls_update (fun u hu => ?_) fun d hd => ?_⟩
  · have hut : u ≠ t := by
      rintro rfl
      rcases hu with hu | hu
      · exact (hk.call_notMem c u hslot).2 hu
      · exact absurd (hk.call_lt c u hslot) (Nat.not_lt.2 hu)
    rw [setPage_of_ne fun heq => hut heq.1]
    exact h.unmapped u page hu
  · rw [setPage_of_ne (by omega)]
    exact h.beyond u page hpage
  · by_cases heq : u = t ∧ page = i
    · obtain ⟨rfl, rfl⟩ := heq
      rw [setPage_self] at hf
      cases hf
      exact hcall.2 page (span + page) ⟨Nat.le_refl page, hi, rfl⟩
    · rw [setPage_of_ne heq] at hf
      exact h.used u page f hf
  · cases Option.some.inj hu
    refine ⟨fun page hpage => ?_, ?_⟩
    · have hle : i + 1 ≤ page := hpage
      rw [setPage_of_ne (by omega)]
      exact hcall.1 page (Nat.le_of_succ_le hle)
    · rintro page f ⟨hle, hlt, rfl⟩
      exact hcall.2 page (span + page) ⟨Nat.le_of_succ_le hle, hlt, rfl⟩
  · exact (h.calls d).setPage fun hslot' => hd (hk.call_inj d c t hslot' hslot)

private theorem Pages.unmapPage {t f : ℕ} {frames : List ℕ}
    (h : Pages pages use next freed core) (hk : Slots next freed owned fun c => (core c).slot)
    (hc : core c = .unmapping t frames) (hf : pages t frames.length = some f) :
    Pages (setPage pages t frames.length none) use next freed
      (Function.update core c (.unflushed t (frames ++ [f]))) := by
  have hslot : (core c).slot = some t := by rw [hc]; rfl
  have hcall := h.calls c t hslot
  rw [hc] at hcall
  refine ⟨fun u page hu => setPage_none (h.unmapped u page hu),
    fun u page hp => setPage_none (h.beyond u page hp), fun u page g hg => ?_,
    calls_update (fun u hu => ?_) fun d hd => ?_⟩
  · by_cases heq : u = t ∧ page = frames.length
    · obtain ⟨rfl, rfl⟩ := heq
      rw [setPage_self] at hg
      cases hg
    · rw [setPage_of_ne heq] at hg
      exact h.used u page g hg
  · cases Option.some.inj hu
    refine ⟨fun page hpage => ?_, fun page g hg => ?_⟩
    · have hlt : page < (frames ++ [f]).length := hpage
      rw [List.length_append, List.length_singleton] at hlt
      rcases Nat.eq_or_lt_of_le (Nat.le_of_lt_succ hlt) with rfl | hlt
      · exact setPage_self
      · exact setPage_none (hcall.1 page hlt)
    · rcases getElem?_snoc hg with ⟨rfl, rfl⟩ | hg
      · exact h.used t frames.length g hf
      · exact hcall.2 page g hg
  · exact (h.calls d).setPage fun hslot' => hd (hk.call_inj d c t hslot' hslot)

private theorem Pages.freeFrame {t k f : ℕ} {frames : List ℕ}
    (h : Pages pages use next freed core) (hk : Slots next freed owned fun c => (core c).slot)
    (hc : core c = .freeing t k frames) (hf : frames[k]? = some f) :
    Pages pages (Function.update use f .free) next freed
      (Function.update core c (.freeing t (k + 1) frames)) := by
  have hslot : (core c).slot = some t := by rw [hc]; rfl
  have hcall := h.calls c t hslot
  rw [hc] at hcall
  have huse : use f = .stack t k := hcall.2 k f ⟨Nat.le_refl k, hf⟩
  -- The frame was taken for page `k` of `t`, so one taken for another page is another.
  have hother : ∀ g u page, ¬ (u = t ∧ page = k) → use g = .stack u page →
      Function.update use f .free g = .stack u page := by
    intro g u page hne hg
    have hgf : g ≠ f := by
      rintro rfl
      rw [huse] at hg
      cases hg
      exact hne ⟨rfl, rfl⟩
    rw [Function.update_of_ne hgf]
    exact hg
  refine ⟨h.unmapped, h.beyond, fun u page g hg => ?_, calls_update (fun u hu => ?_) ?_⟩
  · refine hother g u page ?_ (h.used u page g hg)
    rintro ⟨rfl, rfl⟩
    rw [hcall.1 page trivial] at hg
    cases hg
  · cases Option.some.inj hu
    refine ⟨hcall.1, ?_⟩
    rintro page g ⟨hle, hg⟩
    exact hother g t page (by omega) (hcall.2 page g ⟨Nat.le_of_succ_le hle, hg⟩)
  · intro d hd u hu
    refine ⟨(h.calls d u hu).1, fun page g hg => ?_⟩
    refine hother g u page ?_ ((h.calls d u hu).2 page g hg)
    rintro ⟨rfl, -⟩
    exact hd (hk.call_inj d c u hu hslot)

/-- Once all pages are removed the whole slot is unmapped. -/
private theorem Pages.allRemoved {t : ℕ} {frames : List ℕ} (h : Pages pages use next freed core)
    (hc : core c = .unmapping t frames) (hlen : frames.length = stackPages)
    (hslot : loc'.slot = some t)
    (hholds : ∀ page f, loc'.Holds page f → frames[page]? = some f) :
    Pages pages use next freed (Function.update core c loc') := by
  have hcall := h.calls c
  rw [hc] at hcall
  refine h.call fun u hu => ?_
  cases Option.some.inj (hslot.symm.trans hu)
  refine ⟨fun page _ => ?_, fun page f hf => (hcall t rfl).2 page f (hholds page f hf)⟩
  by_cases hlt : page < stackPages
  · exact (hcall t rfl).1 page (Nat.lt_of_lt_of_eq hlt hlen.symm)
  · exact h.beyond t page (Nat.le_of_not_lt hlt)

end Pages

private theorem pages_step (hk : Slots s.next s.freed s.owned fun c => (s.core c).slot)
    (h : Pages s.pages s.use s.next s.freed s.core) (hs : Step s s') :
    Pages s'.pages s'.use s'.next s'.freed s'.core := by
  cases hs
  case slotFreed c slot freed hc hfreed =>
    rw [hfreed] at h
    refine Pages.call ⟨fun t page ht => h.unmapped t page ?_, h.beyond, h.used, h.calls⟩ ?_
    · exact ht.imp_left (List.mem_cons_of_mem slot)
    · intro t ht
      cases Option.some.inj ht
      exact ⟨fun page _ => h.unmapped slot page (.inl List.mem_cons_self),
        fun page f hf => hf.elim⟩
  case slotNew c hc hfreed hlt =>
    refine Pages.call ⟨fun t page ht => h.unmapped t page (ht.imp_right Nat.le_of_succ_le),
      h.beyond, h.used, h.calls⟩ fun t ht => ?_
    cases Option.some.inj ht
    exact ⟨fun page _ => h.unmapped s.next page (.inr (Nat.le_refl _)),
      fun page f hf => hf.elim⟩
  case mapFrames c slot span hc hfree => exact h.takeFrames hc hfree
  case mapLock c slot span hc hlock =>
    exact h.move hc rfl (fun _ _ => trivial) fun page f hf => hf.2
  case mapPage c slot span i hc hi hnone => exact h.mapPage hk hc hi
  case unmapCall c slot hc hmem =>
    exact h.call fun t ht => ⟨fun page hp => hp.elim, fun page f hf => hf.elim⟩
  case unmapLock c slot hc hlock =>
    refine h.call fun t ht => ⟨fun page hp => absurd hp (Nat.not_lt_zero page), ?_⟩
    intro page f hf
    cases hf
  case unmapPage c slot f frames hc hlt hf => exact h.unmapPage hk hc hf
  case flushNone c slot frames hc hlen hn =>
    exact h.allRemoved hc hlen rfl fun page f hf => hf.2
  case flushCall c slot frames hc hlen hn =>
    exact h.allRemoved hc hlen rfl fun page f hf => hf
  case flushReturn c slot frames hc hacks =>
    exact h.move hc rfl (fun _ _ => trivial) fun page f hf => hf.2
  case freeFrame c slot k f frames hc hf => exact h.freeFrame hk hc hf
  case freeSlot c slot frames hc =>
    have hcall := h.calls c
    rw [hc] at hcall
    refine Pages.call ⟨fun t page ht => ?_, h.beyond, h.used, h.calls⟩ (.of_slot_none rfl)
    rcases ht with ht | ht
    · rcases List.mem_cons.1 ht with rfl | ht
      · exact (hcall t rfl).1 page trivial
      · exact h.unmapped t page (.inl ht)
    · exact h.unmapped t page (.inr ht)
  case mapDone | unmapDone => exact h.call (.of_slot_none rfl)
  case reload | ack | cache | evict => exact h
  case otherTake f hf | otherGive f hf =>
    refine h.of_keeps (keeps_update fun t page hstack => ?_)
    rw [hf] at hstack
    cases hstack
  case flushOwn c slot frames hc | flushReset c slot frames hc | flushSend c slot frames hc =>
    exact h.move hc rfl (fun _ hp => hp) fun _ _ hf => hf
  case flushLock c slot frames hc hlock =>
    exact h.move hc rfl (fun _ hp => hp) fun _ _ hf => hf

/-! ### Messages -/

section Messages

variable {core : Fin n → Loc} {acks : ℕ} {pending : Fin n → ℕ} {handling flushed : Fin n → Bool}

private theorem waits_update (hloc : ¬ loc.Waits) {d : Fin n}
    (h : (Function.update core c loc d).Waits) : d ≠ c ∧ (core d).Waits := by
  rcases eq_or_ne d c with rfl | hdc
  · rw [Function.update_self] at h
    exact absurd h hloc
  · rw [Function.update_of_ne hdc] at h
    exact ⟨hdc, h⟩

/-- A core that neither waits before nor after leaves the messages alone. -/
private theorem Messages.move (h : Messages core acks pending handling flushed)
    (hc : ¬ (core c).Waits) (hloc : ¬ loc.Waits) (hreset : loc.Reset → acks = 0)
    (hret : loc.Returned → ∀ d ≠ c, flushed d = true) :
    Messages (Function.update core c loc) acks pending handling flushed := by
  refine ⟨fun hno => h.quiet fun d hd => ?_, fun d hd => ?_,
    fun d hd => h.own d (waits_update hloc hd).2,
    fun d hd => h.others d (waits_update hloc hd).2,
    fun d hd => h.count d (waits_update hloc hd).2, fun d hd => ?_⟩
  · have hdc : d ≠ c := by
      rintro rfl
      exact hc hd
    exact hno d (by rwa [Function.update_of_ne hdc])
  · rcases eq_or_ne d c with rfl | hdc
    · rw [Function.update_self] at hd
      exact hreset hd
    · rw [Function.update_of_ne hdc] at hd
      exact h.reset d hd
  · rcases eq_or_ne d c with rfl | hdc
    · rw [Function.update_self] at hd
      exact hret hd
    · rw [Function.update_of_ne hdc] at hd
      exact h.returned d hd

/-- While one core alone is in a locked section, and neither waits nor is past its wait, the
history and the count do not matter. -/
private theorem Messages.of_quiet (h : Messages core acks pending handling flushed)
    (hw : ∀ d, ¬ (core d).Waits) (hr : ∀ d, ¬ (core d).Returned) {acks' : ℕ}
    (hreset : ∀ d, (core d).Reset → acks' = 0) (flushed' : Fin n → Bool) :
    Messages core acks' pending handling flushed' :=
  ⟨h.quiet, hreset, fun d hd => absurd hd (hw d), fun d hd => absurd hd (hw d),
    fun d hd => absurd hd (hw d), fun d hd => absurd hd (hr d)⟩

private theorem Messages.send {t : ℕ} {frames : List ℕ}
    (h : Messages core acks pending handling flushed) (hc : core c = .flushReset t frames)
    (hw : ∀ d, ¬ (core d).Waits) (hr : ∀ d, ¬ (core d).Returned) :
    Messages (Function.update core c (.flushSent t frames)) acks
      (fun d => if d = c then pending d else pending d + 1) handling flushed := by
  have hacks : acks = 0 := h.reset c (by rw [hc]; trivial)
  have hquiet := h.quiet hw
  -- The sender is the only core that waits.
  have honly : ∀ d, (Function.update core c (.flushSent t frames) d).Waits → d = c := by
    intro d hd
    by_contra hdc
    rw [Function.update_of_ne hdc] at hd
    exact hw d hd
  refine ⟨fun hno => ?_, fun _ _ => hacks, fun d hd => ?_, fun d hd e hed => ?_,
    fun d hd => ?_, fun d hd => ?_⟩
  · exact absurd (by rw [Function.update_self]; trivial) (hno c)
  · rw [honly d hd, if_pos rfl]
    exact hquiet c
  · rw [honly d hd] at hed
    left
    rw [if_neg hed, (hquiet e).1]
    exact ⟨rfl, (hquiet e).2⟩
  · rw [honly d hd, hacks]
    symm
    rw [Finset.card_eq_zero, Finset.filter_eq_empty_iff]
    rintro e - ⟨hec, hpend, -⟩
    rw [if_neg hec] at hpend
    exact Nat.succ_ne_zero _ hpend
  · rcases eq_or_ne d c with rfl | hdc
    · rw [Function.update_self] at hd
      exact hd.elim
    · rw [Function.update_of_ne hdc] at hd
      exact absurd hd (hr d)

/-- When the count is complete, every other core has reloaded. -/
private theorem Messages.complete (h : Messages core acks pending handling flushed)
    (hc : (core c).Waits) (hacks : n - 1 ≤ acks) {d : Fin n} (hd : d ≠ c) :
    pending d = 0 ∧ handling d = false ∧ flushed d = true := by
  have hsub : (Finset.univ.filter fun d => d ≠ c ∧ pending d = 0 ∧ handling d = false) ⊆
      Finset.univ.erase c := by
    intro e he
    exact Finset.mem_erase.2 ⟨(Finset.mem_filter.1 he).2.1, Finset.mem_univ e⟩
  have hcard : (Finset.univ.erase c).card ≤
      (Finset.univ.filter fun d => d ≠ c ∧ pending d = 0 ∧ handling d = false).card := by
    rw [Finset.card_erase_of_mem (Finset.mem_univ c), Finset.card_univ, Fintype.card_fin,
      ← h.count c hc]
    exact hacks
  have hmem : d ∈ Finset.univ.filter fun d => d ≠ c ∧ pending d = 0 ∧ handling d = false := by
    rw [Finset.eq_of_subset_of_card_le hsub hcard]
    exact Finset.mem_erase.2 ⟨hd, Finset.mem_univ d⟩
  obtain ⟨-, -, hpend, hhand⟩ := Finset.mem_filter.1 hmem
  refine ⟨hpend, hhand, ?_⟩
  rcases h.others c hc d hd with ⟨hone, -⟩ | ⟨-, hflush⟩
  · rw [hpend] at hone
    cases hone
  · exact hflush

private theorem Messages.finish {t : ℕ} {frames : List ℕ}
    (h : Messages core acks pending handling flushed) (hc : core c = .flushSent t frames)
    (hacks : n - 1 ≤ acks) (hw : ∀ d ≠ c, ¬ (core d).Waits) (hr : ∀ d, ¬ (core d).Returned) :
    Messages (Function.update core c (.freeing t 0 frames)) acks pending handling flushed := by
  have hwait : (core c).Waits := by rw [hc]; trivial
  have hno : ∀ d, ¬ (Function.update core c (.freeing t 0 frames) d).Waits := by
    intro d hd
    have hnot : ¬ (Loc.freeing t 0 frames).Waits := id
    obtain ⟨hdc, hd⟩ := waits_update hnot hd
    exact hw d hdc hd
  refine ⟨fun _ d => ?_, fun d hd => ?_, fun d hd => absurd hd (hno d),
    fun d hd => absurd hd (hno d), fun d hd => absurd hd (hno d), fun d hd e hed => ?_⟩
  · rcases eq_or_ne d c with rfl | hdc
    · exact h.own d hwait
    · obtain ⟨hpend, hhand, -⟩ := h.complete hwait hacks hdc
      exact ⟨hpend, hhand⟩
  · rcases eq_or_ne d c with rfl | hdc
    · rw [Function.update_self] at hd
      exact hd.elim
    · rw [Function.update_of_ne hdc] at hd
      exact h.reset d hd
  · rcases eq_or_ne d c with rfl | hdc
    · exact (h.complete hwait hacks hed).2.2
    · rw [Function.update_of_ne hdc] at hd
      exact absurd hd (hr d)

/-- A core with a message or a running handler is not the one that waits. -/
private theorem Messages.waiter (h : Messages core acks pending handling flushed)
    (hc : ¬ (pending c = 0 ∧ handling c = false)) :
    ∃ d, (core d).Waits := by
  by_contra hno
  exact hc (h.quiet (not_exists.1 hno) c)

private theorem Messages.reload (h : Messages core acks pending handling flushed)
    (hpend : pending c ≠ 0) :
    Messages core acks (Function.update pending c (pending c - 1))
      (Function.update handling c true) (Function.update flushed c true) := by
  have hmine : ¬ (pending c = 0 ∧ handling c = false) := fun hboth => hpend hboth.1
  have hne : ∀ d, (core d).Waits → c ≠ d := by
    rintro d hd rfl
    exact hmine (h.own c hd)
  have hone : ∀ d, (core d).Waits → pending c - 1 = 0 := by
    intro d hd
    rcases h.others d hd c (hne d hd) with ⟨hone, -⟩ | ⟨hzero, -⟩
    · rw [hone]
    · exact absurd hzero hpend
  refine ⟨fun hno => ?_, h.reset, fun d hd => ?_, fun d hd e hed => ?_, fun d hd => ?_,
    fun d hd e hed => ?_⟩
  · obtain ⟨d, hd⟩ := h.waiter hmine
    exact absurd hd (hno d)
  · rw [Function.update_of_ne (hne d hd).symm, Function.update_of_ne (hne d hd).symm]
    exact h.own d hd
  · rcases eq_or_ne e c with rfl | hec
    · right
      rw [Function.update_self, Function.update_self]
      exact ⟨hone d hd, rfl⟩
    · rw [Function.update_of_ne hec, Function.update_of_ne hec, Function.update_of_ne hec]
      exact h.others d hd e hed
  · rw [h.count d hd]
    congr 1
    refine Finset.filter_congr fun e _ => ?_
    rcases eq_or_ne e c with rfl | hec
    · rw [Function.update_self, Function.update_self]
      exact ⟨fun hthis => absurd hthis.2.1 hpend, fun hthis => nomatch hthis.2.2⟩
    · rw [Function.update_of_ne hec, Function.update_of_ne hec]
  · rcases eq_or_ne e c with rfl | hec
    · exact Function.update_self ..
    · rw [Function.update_of_ne hec]
      exact h.returned d hd e hed

private theorem Messages.ack (h : Messages core acks pending handling flushed)
    (hhand : handling c = true) (hreset : ∀ d, (core d).Waits → ∀ e, ¬ (core e).Reset) :
    Messages core (acks + 1) pending (Function.update handling c false) flushed := by
  have hmine : ¬ (pending c = 0 ∧ handling c = false) := by
    rintro ⟨-, hfalse⟩
    rw [hhand] at hfalse
    cases hfalse
  have hne : ∀ d, (core d).Waits → c ≠ d := by
    rintro d hd rfl
    exact hmine (h.own c hd)
  have hdone : ∀ d, (core d).Waits → pending c = 0 ∧ flushed c = true := by
    intro d hd
    rcases h.others d hd c (hne d hd) with ⟨-, hfalse⟩ | hdone
    · rw [hhand] at hfalse
      cases hfalse
    · exact hdone
  obtain ⟨w, hw⟩ := h.waiter hmine
  refine ⟨fun hno => absurd hw (hno w), fun d hd => absurd hd (hreset w hw d), fun d hd => ?_,
    fun d hd e hed => ?_, fun d hd => ?_, h.returned⟩
  · rw [Function.update_of_ne (hne d hd).symm]
    exact h.own d hd
  · rcases eq_or_ne e c with rfl | hec
    · exact .inr (hdone d hd)
    · rw [Function.update_of_ne hec]
      exact h.others d hd e hed
  · -- The core joins those that are done.
    have hnot : c ∉ Finset.univ.filter fun e => e ≠ d ∧ pending e = 0 ∧ handling e = false := by
      intro hmem
      exact hmine (Finset.mem_filter.1 hmem).2.2
    rw [h.count d hd, ← Finset.card_insert_of_notMem hnot]
    congr 1
    ext e
    rw [Finset.mem_insert, Finset.mem_filter, Finset.mem_filter]
    rcases eq_or_ne e c with rfl | hec
    · rw [Function.update_self]
      exact ⟨fun _ => ⟨Finset.mem_univ e, hne d hd, (hdone d hd).1, rfl⟩, fun _ => .inl rfl⟩
    · rw [Function.update_of_ne hec]
      exact ⟨fun hthis => hthis.resolve_left hec, .inr⟩

end Messages

private theorem Inv.no_waits (h : Inv s) (hc : (s.core c).Locked) (hw : ¬ (s.core c).Waits)
    (d : Fin n) : ¬ (s.core d).Waits := by
  intro hd
  cases h.locked_unique hd.locked hc
  exact hw hd

private theorem Inv.no_returned (h : Inv s) (hc : (s.core c).Locked)
    (hr : ¬ (s.core c).Returned) (d : Fin n) : ¬ (s.core d).Returned := by
  intro hd
  cases h.locked_unique hd.locked hc
  exact hr hd

private theorem Inv.no_reset (h : Inv s) (hc : (s.core c).Locked) (hr : ¬ (s.core c).Reset)
    (d : Fin n) : ¬ (s.core d).Reset := by
  intro hd
  cases h.locked_unique hd.locked hc
  exact hr hd

private theorem Loc.Waits.not_reset (h : loc.Waits) : ¬ loc.Reset := by
  cases loc <;> first | exact h.elim | exact id

private theorem messages_step (h : Inv s) (hs : Step s s') :
    Messages s'.core s'.acks s'.pending s'.handling s'.flushed := by
  have hm := h.messages
  cases hs
  case unmapPage c slot f frames hc hlt hf =>
    have hlock : (s.core c).Locked := by rw [hc]; trivial
    have hw : ¬ (s.core c).Waits := by rw [hc]; exact id
    have hr : ¬ (s.core c).Returned := by rw [hc]; exact id
    exact (hm.of_quiet (h.no_waits hlock hw) (h.no_returned hlock hr) hm.reset _).move hw id
      (fun hf => hf.elim) fun hf => hf.elim
  case flushReset c slot frames hc =>
    have hlock : (s.core c).Locked := by rw [hc]; trivial
    have hw : ¬ (s.core c).Waits := by rw [hc]; exact id
    have hr : ¬ (s.core c).Returned := by rw [hc]; exact id
    exact (hm.of_quiet (h.no_waits hlock hw) (h.no_returned hlock hr) (fun _ _ => rfl) _).move
      hw id (fun _ => rfl) fun hf => hf.elim
  case flushSend c slot frames hc =>
    have hlock : (s.core c).Locked := by rw [hc]; trivial
    exact hm.send hc (h.no_waits hlock (by rw [hc]; exact id))
      (h.no_returned hlock (by rw [hc]; exact id))
  case flushReturn c slot frames hc hacks =>
    have hlock : (s.core c).Locked := by rw [hc]; trivial
    exact hm.finish hc hacks (fun d hd hw => hd (h.locked_unique hw.locked hlock))
      (h.no_returned hlock (by rw [hc]; exact id))
  case flushNone c slot frames hc hlen hn =>
    refine hm.move (by rw [hc]; exact id) id (fun hf => hf.elim) fun _ d hd => ?_
    exact absurd (Fin.ext (by omega)) hd
  case freeFrame c slot k f frames hc hf =>
    exact hm.move (by rw [hc]; exact id) id (fun hf => hf.elim)
      fun _ => hm.returned c (by rw [hc]; trivial)
  case reload c hpend hhand => exact hm.reload hpend
  case ack c hhand =>
    exact hm.ack hhand fun d hd => h.no_reset hd.locked hd.not_reset
  case cache | evict | otherTake | otherGive => exact hm
  all_goals
    refine hm.move ?_ id (fun hf => hf.elim) fun hf => hf.elim
    simp only [*, Loc.Waits, not_false_eq_true]

/-! ### Caches -/

section Cached

variable {pages : ℕ → ℕ → Option ℕ} {tlb tlb' : Fin n → Set Entry} {core : Fin n → Loc}
  {flushed : Fin n → Bool}

private theorem Cached.subset (h : Cached pages tlb core flushed) (hsub : ∀ d, tlb' d ⊆ tlb d) :
    Cached pages tlb' core flushed :=
  fun d e he => h d e (hsub d he)

/-- A core goes on, and what it had removed is still in its hand. -/
private theorem Cached.move (h : Cached pages tlb core flushed) (hc : core c = loc)
    (hstale : ∀ own page f, loc.Holds page f → loc.Stale own page →
      loc'.slot = loc.slot ∧ loc'.Holds page f ∧ loc'.Stale own page) :
    Cached pages tlb (Function.update core c loc') flushed := by
  intro d e he
  rcases h d e he with hmap | ⟨hflush, r, hslot, hholds, hst⟩
  · exact .inl hmap
  · refine .inr ⟨hflush, r, ?_⟩
    rcases eq_or_ne r c with rfl | hrc
    · rw [hc] at hslot hholds hst
      rw [Function.update_self]
      obtain ⟨hsame, hholds', hst'⟩ := hstale _ _ _ hholds hst
      exact ⟨hsame.trans hslot, hholds', hst'⟩
    · rw [Function.update_of_ne hrc]
      exact ⟨hslot, hholds, hst⟩

private theorem Cached.mono_pages {pages' : ℕ → ℕ → Option ℕ}
    (h : Cached pages tlb core flushed)
    (hmono : ∀ t page f, pages t page = some f → pages' t page = some f) :
    Cached pages' tlb core flushed :=
  fun d e he => (h d e he).imp_left (hmono e.slot e.page e.frame)

private theorem Cached.unmapPage {t f : ℕ} {frames : List ℕ}
    (h : Cached pages tlb core flushed) (hc : core c = .unmapping t frames)
    (hf : pages t frames.length = some f) :
    Cached (setPage pages t frames.length none) tlb
      (Function.update core c (.unflushed t (frames ++ [f]))) fun _ => false := by
  intro d e he
  rcases h d e he with hmap | ⟨hflush, r, hslot, hholds, hst⟩
  · by_cases heq : e.slot = t ∧ e.page = frames.length
    · -- The entry that was removed is in the core's hand now.
      refine .inr ⟨rfl, c, ?_⟩
      rw [heq.1, heq.2, hf] at hmap
      rw [Function.update_self, heq.1, heq.2, ← Option.some.inj hmap]
      refine ⟨rfl, List.getElem?_concat_length, fun _ => ?_⟩
      rw [List.length_append, List.length_singleton]
    · rw [setPage_of_ne heq]
      exact .inl hmap
  · refine .inr ⟨rfl, r, ?_⟩
    rcases eq_or_ne r c with rfl | hrc
    · rw [hc] at hslot hholds hst
      rw [Function.update_self]
      have hlt := (List.getElem?_eq_some_iff.1 hholds).1
      exact ⟨hslot, (List.getElem?_append_left hlt).trans hholds, fun hown => absurd hown hst⟩
    · rw [Function.update_of_ne hrc]
      exact ⟨hslot, hholds, hst⟩

private theorem Cached.flushOwn {t : ℕ} {frames : List ℕ} (h : Cached pages tlb core flushed)
    (hc : core c = .unflushed t frames) :
    Cached pages
      (Function.update tlb c { e ∈ tlb c | ¬ (e.slot = t ∧ e.page + 1 = frames.length) })
      (Function.update core c (.unmapping t frames)) flushed := by
  intro d e he
  have hold : e ∈ tlb d ∧ (d = c → ¬ (e.slot = t ∧ e.page + 1 = frames.length)) := by
    rcases eq_or_ne d c with rfl | hdc
    · rw [Function.update_self] at he
      exact ⟨he.1, fun _ => he.2⟩
    · rw [Function.update_of_ne hdc] at he
      exact ⟨he, fun hthis => absurd hthis hdc⟩
  rcases h d e hold.1 with hmap | ⟨hflush, r, hslot, hholds, hst⟩
  · exact .inl hmap
  · refine .inr ⟨hflush, r, ?_⟩
    rcases eq_or_ne r c with rfl | hrc
    · rw [hc] at hslot hholds hst
      rw [Function.update_self]
      exact ⟨hslot, hholds,
        fun hown => hold.2 hown ⟨(Option.some.inj hslot).symm, hst hown⟩⟩
    · rw [Function.update_of_ne hrc]
      exact ⟨hslot, hholds, hst⟩

/-- Once every other core has reloaded, nothing that a core removed is cached. -/
private theorem Cached.settle (h : Cached pages tlb core flushed) (hc : core c = loc)
    (hst : ∀ own page, loc.Stale own page → ¬ own) (hall : ∀ d ≠ c, flushed d = true) :
    Cached pages tlb (Function.update core c loc') flushed := by
  intro d e he
  rcases h d e he with hmap | ⟨hflush, r, hslot, hholds, hstale⟩
  · exact .inl hmap
  · rcases eq_or_ne r c with rfl | hrc
    · rw [hc] at hstale
      rw [hall d (hst _ _ hstale)] at hflush
      cases hflush
    · refine .inr ⟨hflush, r, ?_⟩
      rw [Function.update_of_ne hrc]
      exact ⟨hslot, hholds, hstale⟩

private theorem Cached.reload (h : Cached pages tlb core flushed) :
    Cached pages (Function.update tlb c ∅) core (Function.update flushed c true) := by
  intro d e he
  rcases eq_or_ne d c with rfl | hdc
  · rw [Function.update_self] at he
    exact he.elim
  · rw [Function.update_of_ne hdc] at he ⊢
    exact h d e he

private theorem Cached.insert {e : Entry} (h : Cached pages tlb core flushed)
    (he : pages e.slot e.page = some e.frame) :
    Cached pages (Function.update tlb c (insert e (tlb c))) core flushed := by
  intro d e' he'
  rcases eq_or_ne d c with rfl | hdc
  · rw [Function.update_self] at he'
    rcases he' with rfl | he'
    · exact .inl he
    · exact h d e' he'
  · rw [Function.update_of_ne hdc] at he'
    exact h d e' he'

private theorem update_subset {t : Set Entry} (h : t ⊆ tlb c) (d : Fin n) :
    Function.update tlb c t d ⊆ tlb d := by
  rcases eq_or_ne d c with rfl | hdc
  · rwa [Function.update_self]
  · rw [Function.update_of_ne hdc]

end Cached

private theorem cached_step (h : Inv s) (hs : Step s s') :
    Cached s'.pages s'.tlb s'.core s'.flushed := by
  have hca := h.cached
  cases hs
  case mapPage c slot span i hc hi hnone =>
    have hmono : ∀ t page f, s.pages t page = some f →
        setPage s.pages slot i (some (span + i)) t page = some f := by
      intro t page f hf
      have hne : ¬ (t = slot ∧ page = i) := by
        rintro ⟨rfl, rfl⟩
        rw [hnone] at hf
        cases hf
      rw [setPage_of_ne hne, hf]
    refine Cached.subset ((hca.mono_pages hmono).move hc fun _ _ _ _ hst => hst.elim) ?_
    exact update_subset (Set.sep_subset _ _)
  case unmapPage c slot f frames hc hlt hf => exact hca.unmapPage hc hf
  case flushOwn c slot frames hc => exact hca.flushOwn hc
  case flushNone c slot frames hc hlen hn =>
    refine hca.settle hc (fun _ _ hst => hst) fun d hd => ?_
    exact absurd (Fin.ext (by omega)) hd
  case flushReturn c slot frames hc hacks =>
    have hwait : (s.core c).Waits := by rw [hc]; trivial
    exact hca.settle hc (fun _ _ hst => hst)
      fun d hd => (h.messages.complete hwait hacks hd).2.2
  case reload c hpend hhand => exact hca.reload
  case cache c e he => exact hca.insert he
  case evict c e => exact hca.subset (update_subset Set.sdiff_subset)
  case ack | otherTake | otherGive => exact hca
  case flushCall c slot frames hc hlen hn =>
    exact hca.move hc fun _ _ _ hholds hst => ⟨rfl, hholds, hst⟩
  case flushLock c slot frames hc hlock =>
    exact hca.move hc fun _ _ _ hholds hst => ⟨rfl, hholds, hst⟩
  case flushReset c slot frames hc | flushSend c slot frames hc =>
    exact hca.move hc fun _ _ _ hholds hst => ⟨rfl, hholds, hst⟩
  -- The other steps start from where nothing is removed.
  all_goals
    refine hca.move (by assumption) ?_
    exact fun _ _ _ _ hst => hst.elim

/-! ### The whole invariant -/

private theorem inv_init (h : Init s) : Inv s := by
  have hslot : ∀ c, (s.core c).slot = none := fun c => by rw [h.core c]; rfl
  obtain ⟨hnodup, hlt⟩ := h.slots
  obtain ⟨ho, hf, hdis⟩ := List.nodup_append.1 hnodup
  have hnone : ∀ t page, ¬ (t ∈ s.owned ∧ page < stackPages) → s.pages t page = none := by
    intro t page hnot
    rw [Option.eq_none_iff_forall_ne_some]
    exact fun f hmap => hnot (h.mapped t page f hmap)
  refine ⟨fun c hc => ?_, ⟨ho, hf, fun t ht htf => hdis t ht t htf rfl,
    fun t ht => hlt t (List.mem_append_left _ ht), fun t ht => hlt t (List.mem_append_right _ ht),
    fun c t hc => ?_, fun c t hc => ?_, fun c d t hc => ?_⟩,
    ⟨fun t page ht => hnone t page ?_, fun t page hp => hnone t page ?_, h.used,
    fun c => .of_slot_none (hslot c)⟩,
    ⟨fun _ d => ⟨h.pending d, h.handling d⟩, fun c hc => ?_, fun c hc => ?_, fun c hc => ?_,
    fun c hc => ?_, fun c hc => ?_⟩, fun c e he => .inl (h.tlb c e he)⟩
  case refine_5 =>
    rintro ⟨hown, -⟩
    rcases ht with ht | ht
    · exact hdis t hown t ht rfl
    · exact absurd (hlt t (List.mem_append_left _ hown)) (Nat.not_lt.2 ht)
  case refine_6 => exact fun hthis => absurd hthis.2 (Nat.not_lt.2 hp)
  case refine_2 | refine_3 | refine_4 =>
    rw [hslot c] at hc
    cases hc
  all_goals
    rw [h.core c] at hc
    exact hc.elim

private theorem inv_step (h : Inv s) (hs : Step s s') : Inv s' where
  mapper := locked_step h.mapper hs
  slots := slots_step h.slots hs
  pages := pages_step h.slots h.pages hs
  messages := messages_step h hs
  cached := cached_step h hs

private theorem Reaches.inv (h : Transition.Reaches Init Step s) : Inv s :=
  h.invariant (P := Inv) (fun _ hs => inv_init hs) fun _ _ hi hs => inv_step hi hs

private theorem Loc.Maps.slot {t : ℕ} (h : loc.Maps t) : loc.slot = some t := by
  cases loc <;> first | exact h.elim | exact congrArg some h

private theorem Loc.Maps.not_stale {t page : ℕ} {own : Prop} (h : loc.Maps t) :
    ¬ loc.Stale own page := by
  cases loc <;> first | exact h.elim | exact id

/-- In every run: when `flush_broadcast` has returned, every other core has reloaded CR3 since
the last entry was removed; a frame that some core has a translation to is still taken for that
page; what is cached for a slot that a process has or gets is its mapping of now; and no slot
has two processes. -/
theorem shootdown_safe (h : Transition.Reaches Init Step s) :
    (∀ c slot k frames, s.core c = .freeing slot k frames → ∀ d ≠ c, s.flushed d = true) ∧
    (∀ c, ∀ e ∈ s.tlb c, s.use e.frame = .stack e.slot e.page) ∧
    (∀ c, ∀ e ∈ s.tlb c, (e.slot ∈ s.owned ∨ ∃ d, (s.core d).Maps e.slot) →
      s.pages e.slot e.page = some e.frame) ∧
    s.owned.Nodup ∧
    ∀ c slot, (s.core c).Maps slot → slot ∉ s.owned ∧ ∀ d, (s.core d).Maps slot → d = c := by
  have hinv := Reaches.inv h
  refine ⟨fun c slot k frames hc => hinv.messages.returned c (by rw [hc]; trivial),
    fun c e he => ?_, fun c e he hhand => ?_, hinv.slots.owned_nodup, fun c slot hc => ?_⟩
  · rcases hinv.cached c e he with hmap | ⟨-, r, hslot, hholds, -⟩
    · exact hinv.pages.used e.slot e.page e.frame hmap
    · exact (hinv.pages.calls r e.slot hslot).2 e.page e.frame hholds
  · rcases hinv.cached c e he with hmap | ⟨-, r, hslot, -, hst⟩
    · exact hmap
    · rcases hhand with hown | ⟨d, hd⟩
      · exact absurd hown (hinv.slots.call_notMem r e.slot hslot).1
      · cases hinv.slots.call_inj d r e.slot hd.slot hslot
        exact absurd hst hd.not_stale
  · exact ⟨(hinv.slots.call_notMem c slot hc.slot).1,
      fun d hd => hinv.slots.call_inj d c slot hd.slot hc.slot⟩

/-- Two cores, one stack in frames 0 to 55, and its first page cached by the second core. -/
def oneStack : Machine 2 where
  pages t page := if t = 0 ∧ page < stackPages then some page else none
  tlb c := { e | c.val = 1 ∧ e = ⟨0, 0, 0⟩ }
  use f := if f < stackPages then .stack 0 f else .free
  next := 1
  freed := []
  owned := [0]
  mapper := none
  shootdown := none
  acks := 0
  pending _ := 0
  handling _ := false
  core _ := .idle
  flushed _ := true

private theorem oneStack_init : Init oneStack where
  core _ := rfl
  pending _ := rfl
  handling _ := rfl
  slots := by decide
  mapped t page f h := by
    simp only [oneStack, Option.ite_none_right_eq_some] at h
    simpa [oneStack] using h.1
  used t page f h := by
    simp only [oneStack, Option.ite_none_right_eq_some, Option.some.injEq] at h
    obtain ⟨⟨rfl, hlt⟩, rfl⟩ := h
    simp only [oneStack, if_pos hlt]
  tlb c e h := by
    obtain ⟨-, rfl⟩ := h
    rfl

/-- The first core removes the first page, which the second has cached: the frame is kept. -/
theorem oneStack_stale_frame_kept :
    ∃ s : Machine 2, Transition.Reaches Init Step s ∧ ⟨0, 0, 0⟩ ∈ s.tlb 1 ∧
      s.pages 0 0 = none ∧ s.use 0 = .stack 0 0 := by
  have hcall := Transition.Reaches.step (.init oneStack_init)
    (Step.unmapCall 0 rfl List.mem_cons_self)
  have hlock := hcall.step (Step.unmapLock 0 (rfl : _ = Loc.unmapWait 0) rfl)
  have hpage := hlock.step
    (Step.unmapPage 0 (f := 0) (rfl : _ = Loc.unmapping 0 []) (by decide) rfl)
  exact ⟨_, hpage, ⟨rfl, rfl⟩, rfl, (shootdown_safe hpage).2.1 1 _ ⟨rfl, rfl⟩⟩

end Shootdown

end Yggdrasil
