import Yggdrasil.Asm.Emission

/-!
# What a body is assembled to

The invariant of the loop over the lines of a body: the instructions emitted so far are those
of the lines, labels are bound behind the instructions before them, and the atoms are the
names met so far. In the end the offsets are filled in, and the code is the encoding of the
instructions with their offsets.
-/

namespace Yggdrasil

open Backpatch (Item)

namespace Insn

/-- Instructions start behind the lengths of those before them. -/
theorem startOf_eq_sum (insns : List Insn) (k : ℕ) :
    startOf insns k = ((insns.map fun i => i.encode.length).take k).sum := by
  rw [startOf, encodeAll, List.length_flatMap, List.map_take]

end Insn

namespace Asm

namespace Stmt

/-- An instruction behind others. -/
theorem insns_append (stmts rest : List Stmt) :
    insns (stmts ++ rest) = insns stmts ++ insns rest :=
  List.filterMap_append

/-- A label is bound behind the instructions so far. -/
theorem boundAt_label (x name : String) (stmts : List Stmt) :
    boundAt x (stmts ++ [label name]) =
      if name = x then some (insns stmts).length else boundAt x stmts := by
  induction stmts with
  | nil => rfl
  | cons s stmts ih =>
    cases s with
    | label name' =>
      rw [List.cons_append, boundAt, ih, boundAt]
      by_cases h : name = x
      · rw [if_pos h, if_pos h]
        rfl
      · rw [if_neg h, if_neg h]
    | insn mnem ops =>
      rw [List.cons_append, boundAt, ih, boundAt]
      by_cases h : name = x
      · rw [if_pos h, if_pos h]
        rfl
      · rw [if_neg h, if_neg h]

/-- An instruction binds no label. -/
theorem boundAt_insn (x mnem : String) (ops : List String) (stmts : List Stmt) :
    boundAt x (stmts ++ [insn mnem ops]) = boundAt x stmts := by
  induction stmts with
  | nil => rfl
  | cons s stmts ih =>
    cases s with
    | label name => rw [List.cons_append, boundAt, ih, boundAt]
    | insn mnem ops => rw [List.cons_append, boundAt, ih, boundAt]

/-- Labels are bound at most behind all instructions. -/
theorem boundAt_le {x : String} {stmts : List Stmt} {j : ℕ} (h : boundAt x stmts = some j) :
    j ≤ (insns stmts).length := by
  induction stmts using List.reverseRecOn with
  | nil => cases h
  | append_singleton stmts s ih =>
    rw [insns_append, List.length_append]
    cases s with
    | label name =>
      rw [boundAt_label] at h
      split at h
      · cases h
        omega
      · have := ih h
        omega
    | insn mnem ops =>
      rw [boundAt_insn] at h
      have := ih h
      omega

end Stmt

/-- The instructions emitted. -/
def raw (pieces : List Piece) : List Insn := pieces.map Piece.insn

/-- The items a piece is built from. -/
def Piece.items (labels : Labels) (p : Piece) : List (Item UInt8 UInt32) :=
  match p.label with
  | none => [.chunk p.insn.encode]
  | some name => [.chunk p.insn.head, .hole ((labels.ids.lookup name).getD 0)]

section Items

variable {labels labels' : Labels} {p : Piece} {pieces : List Piece}

/-- Items take the length of the encoding. -/
theorem width_items : Backpatch.width 4 (p.items labels) = p.insn.encode.length := by
  have hoffset := p.offset_eq
  unfold Piece.items
  cases hlabel : p.label with
  | none => simp [Backpatch.width]
  | some name =>
    rw [hlabel] at hoffset
    rw [Insn.encode_eq_head, hoffset]
    simp [Backpatch.width, CodeBuilder.length_encodeOffset]

/-- All items take the length of the code. -/
theorem width_flatMap_items : Backpatch.width 4 (pieces.flatMap (Piece.items labels)) =
    (Insn.encodeAll (raw pieces)).length := by
  induction pieces with
  | nil => rfl
  | cons p pieces ih =>
    rw [List.flatMap_cons, Backpatch.width_append, width_items, ih]
    exact List.length_append.symm

/-- Items stay the same while labels keep their numbers. -/
theorem items_congr (hknown : ∀ name, p.label = some name → ∃ id, labels.ids.lookup name = some id)
    (hkeep : ∀ x j, labels.ids.lookup x = some j → labels'.ids.lookup x = some j) :
    p.items labels' = p.items labels := by
  unfold Piece.items
  cases hlabel : p.label with
  | none => rfl
  | some name =>
    obtain ⟨id, hid⟩ := hknown name hlabel
    dsimp only
    rw [hid, hkeep name id hid]

end Items

/-- Where the `k`-th piece starts. -/
def codePos (pieces : List Piece) (k : ℕ) : ℕ := Insn.startOf (raw pieces) k

/-- More pieces do not move those before them. -/
theorem codePos_append {pieces : List Piece} {k : ℕ} (hk : k ≤ pieces.length) (p : Piece) :
    codePos (pieces ++ [p]) k = codePos pieces k := by
  have hlen : k ≤ (raw pieces).length := by rwa [raw, List.length_map]
  rw [codePos, codePos, raw, List.map_append, Insn.startOf, Insn.startOf]
  exact congrArg (fun insns => (Insn.encodeAll insns).length)
    (List.take_append_of_le_length hlen)

/-- The lines so far are assembled; `base` are the names met in earlier functions. -/
structure Progress (fns : FnIndex) (base : List String) (stmts : List Stmt) (st : FnState)
    (pieces : List Piece) : Prop where
  /-- The lines are assembled to the pieces. -/
  lines : List.Forall₂ (LineAssembled fns st.atoms) (Stmt.insns stmts) pieces
  /-- The atoms are the names met so far. -/
  atoms : st.atoms.names = (base ++ (Stmt.insns stmts).flatMap Line.atoms).eraseDups
  /-- The pieces are emitted. -/
  builds : st.builder.Builds (pieces.flatMap (Piece.items st.labels))
  /-- Labels that are mentioned have a number. -/
  known : ∀ p ∈ pieces, ∀ name, p.label = some name → ∃ id, st.labels.ids.lookup name = some id
  /-- Labels are bound behind the instructions before them. -/
  bound : ∀ name id, st.labels.ids.lookup name = some id →
    st.builder.labels.lookup id = (Stmt.boundAt name stmts).map (codePos pieces)
  /-- Other labels are not bound. -/
  unknown : ∀ name, st.labels.ids.lookup name = none → Stmt.boundAt name stmts = none
  /-- Numbers that are not given yet are not bound. -/
  fresh : ∀ id, st.labels.next ≤ id → st.builder.labels.lookup id = none

namespace Progress

variable {fns : FnIndex} {base : List String} {stmts : List Stmt} {st st' : FnState}
  {pieces : List Piece}

/-- There are as many pieces as lines. -/
theorem length_eq (h : Progress fns base stmts st pieces) :
    (Stmt.insns stmts).length = pieces.length :=
  h.lines.length_eq

/-- The code ends behind the last piece. -/
theorem length_code (h : Progress fns base stmts st pieces) :
    st.builder.code.length = codePos pieces pieces.length := by
  have hlen : pieces.length = (raw pieces).length := (List.length_map ..).symm
  rw [h.builds.length_code, width_flatMap_items, codePos, hlen, Insn.startOf_length]

/-- Nothing is assembled at first. -/
theorem start {atoms : Atoms} (h : atoms.names = base.eraseDups) :
    Progress fns base [] ⟨.new, .empty, atoms⟩ [] := by
  refine ⟨.nil, ?_, CodeBuilder.builds_new, List.forall_mem_nil _, ?_, fun _ _ => rfl,
    fun _ _ => rfl⟩
  · rw [h]
    exact congrArg List.eraseDups (List.append_nil base).symm
  · intro name id hid
    cases hid

/-- A label is mentioned. -/
theorem mention (h : Progress fns base stmts st pieces) {name : String} {id : UInt32}
    {labels : Labels} (hid : st.labels.id name = some (id, labels)) :
    Progress fns base stmts { st with labels := labels } pieces := by
  obtain ⟨-, hkeep, hback, hnext⟩ := Labels.id_spec hid
  refine ⟨h.lines, h.atoms, ?_, ?_, ?_, ?_, ?_⟩
  · have hitems : pieces.flatMap (Piece.items labels) = pieces.flatMap (Piece.items st.labels) :=
      List.flatMap_congr fun p hp => items_congr (h.known p hp) hkeep
    rw [hitems]
    exact h.builds
  · intro p hp x hx
    obtain ⟨j, hj⟩ := h.known p hp x hx
    exact ⟨j, hkeep x j hj⟩
  · intro x j hx
    rcases hback x j hx with hold | ⟨hnone, rfl⟩
    · exact h.bound x j hold
    · rw [h.unknown x hnone, h.fresh _ (UInt32.le_refl _)]
      rfl
  · intro x hx
    refine h.unknown x ?_
    cases hold : st.labels.ids.lookup x with
    | none => rfl
    | some j =>
      rw [hkeep x j hold] at hx
      cases hx
  · exact fun j hj => h.fresh j (UInt32.le_trans hnext hj)

/-- A label line binds the label behind the pieces assembled so far. -/
theorem bindLabel (h : Progress fns base stmts st pieces) {name : String} {id : UInt32}
    (hid : st.labels.ids.lookup name = some id) :
    Progress fns base (stmts ++ [.label name]) { st with builder := st.builder.bindLabel id }
      pieces := by
  have hinsns : Stmt.insns (stmts ++ [.label name]) = Stmt.insns stmts := by
    rw [Stmt.insns_append]
    exact List.append_nil _
  have hlookup : ∀ j, j ≠ id →
      (st.builder.bindLabel id).labels.lookup j = st.builder.labels.lookup j := by
    intro j hj
    rw [CodeBuilder.bindLabel, List.lookup_cons, beq_false_of_ne hj]
  refine ⟨hinsns.symm ▸ h.lines, hinsns.symm ▸ h.atoms, h.builds.bindLabel id, h.known, ?_, ?_, ?_⟩
  · intro x j hx
    rw [Stmt.boundAt_label]
    by_cases hname : name = x
    · subst hname
      rw [hid] at hx
      cases hx
      rw [if_pos rfl, h.length_eq, Option.map_some, ← h.length_code]
      exact List.lookup_cons_self
    · have hne : j ≠ id := by
        rintro rfl
        exact hname (st.labels.inj _ _ _ hid hx)
      rw [if_neg hname]
      exact (hlookup j hne).trans (h.bound x j hx)
  · intro x hx
    have hname : name ≠ x := by
      rintro rfl
      rw [hid] at hx
      cases hx
    rw [Stmt.boundAt_label, if_neg hname]
    exact h.unknown x hx
  · intro j hj
    have hne : j ≠ id := by
      rintro rfl
      exact UInt32.lt_irrefl _ (UInt32.lt_of_lt_of_le (st.labels.lt_next _ _ hid) hj)
    exact (hlookup j hne).trans (h.fresh j hj)

/-- An instruction is built behind the others. -/
private theorem push {line : Line} {p : Piece} (h : Progress fns base stmts st pieces)
    (hline : LineAssembled fns st'.atoms line p)
    (hatoms : st'.atoms = st.atoms.internAll line.atoms) (hlabels : st'.labels = st.labels)
    (hknown : ∀ name, p.label = some name → ∃ id, st.labels.ids.lookup name = some id)
    (hbuilds : st'.builder.Builds
      (pieces.flatMap (Piece.items st.labels) ++ p.items st.labels))
    (hbinds : st'.builder.labels = st.builder.labels) :
    Progress fns base (stmts ++ [.insn line.1 line.2]) st' (pieces ++ [p]) := by
  have hinsns : Stmt.insns (stmts ++ [.insn line.1 line.2]) = Stmt.insns stmts ++ [line] :=
    Stmt.insns_append ..
  refine ⟨?_, ?_, ?_, ?_, ?_, ?_, ?_⟩
  · rw [hinsns]
    refine List.rel_append (h.lines.imp fun line' p' hline' => ?_) (.cons hline .nil)
    rw [hatoms]
    exact hline'.mono fun x i hx => Atoms.lookup_internAll hx _
  · rw [hinsns, hatoms, Atoms.names_internAll h.atoms, List.flatMap_append, List.append_assoc]
    exact congrArg (fun l => (base ++ ((Stmt.insns stmts).flatMap Line.atoms ++ l)).eraseDups)
      (List.append_nil _).symm
  · rw [hlabels, List.flatMap_append, List.flatMap_singleton]
    exact hbuilds
  · intro q hq
    rw [hlabels]
    rcases List.mem_append.mp hq with hq | hq
    · exact h.known q hq
    · rw [List.mem_singleton.mp hq]
      exact hknown
  · intro x j hx
    rw [hlabels] at hx
    rw [hbinds, h.bound x j hx, Stmt.boundAt_insn]
    refine Option.map_congr fun k hk => (codePos_append ?_ p).symm
    rw [← h.length_eq]
    exact Stmt.boundAt_le hk
  · intro x hx
    rw [hlabels] at hx
    rw [Stmt.boundAt_insn]
    exact h.unknown x hx
  · intro j hj
    rw [hlabels] at hj
    rw [hbinds]
    exact h.fresh j hj

/-- An instruction line adds its piece to those assembled so far. -/
theorem emit {line : Line} {p : Piece} (h : Progress fns base stmts st pieces)
    (he : Emits fns line st st' p) :
    Progress fns base (stmts ++ [.insn line.1 line.2]) st' (pieces ++ [p]) := by
  cases hlabel : p.label with
  | none =>
    obtain ⟨hlabels, hbuilder⟩ := he.plain hlabel
    refine h.push he.assembled he.atoms hlabels (fun name hname => ?_) ?_ ?_
    · rw [hlabel] at hname
      cases hname
    · rw [hbuilder, Piece.items, hlabel]
      exact h.builds.extend _
    · rw [hbuilder]
      rfl
  | some name =>
    obtain ⟨id, hid, hbuilder⟩ := he.jump name hlabel
    have hnumber := (Labels.id_spec hid).1
    refine (h.mention hid).push he.assembled he.atoms rfl (fun name' hname => ?_) ?_ ?_
    · rw [hlabel] at hname
      cases hname
      exact ⟨id, hnumber⟩
    · have hbuilds := ((h.mention hid).builds.extend p.insn.head).labelRef id
      rw [hbuilder, Piece.items, hlabel]
      dsimp only
      rw [hnumber]
      rw [List.append_assoc] at hbuilds
      exact hbuilds
    · rw [hbuilder]
      rfl

/-- Every line of a body, label or instruction, keeps the progress in order. -/
theorem stmt {ln : ℕ} {s : Stmt} (h : Progress fns base stmts st pieces)
    (hs : AsmM.stmt fns ln s st = .ok ((), st')) :
    ∃ pieces', Progress fns base (stmts ++ [s]) st' pieces' := by
  cases s with
  | label name =>
    obtain ⟨id, labels, hid, rfl⟩ := AsmM.label_ok hs
    exact ⟨pieces, (h.mention hid).bindLabel (Labels.id_spec hid).1⟩
  | insn mnem ops =>
    obtain ⟨p, hp⟩ := insn_emits hs
    exact ⟨pieces ++ [p], h.emit hp⟩

/-- The lines of a body are assembled. -/
theorem body {lines : List (ℕ × List Char)} (h : Progress fns base stmts st pieces)
    (hbody : AsmM.body fns lines st = .ok ((), st')) :
    ∃ pieces', Progress fns base (stmts ++ lines.map fun line => Stmt.ofLine line.2) st'
      pieces' := by
  induction lines generalizing stmts st pieces with
  | nil =>
    rw [AsmM.body, StateT.pure_eq_ok] at hbody
    cases hbody
    rw [List.map_nil, List.append_nil]
    exact ⟨pieces, h⟩
  | cons line lines ih =>
    rw [AsmM.body, StateT.bind_eq_ok] at hbody
    obtain ⟨⟨⟩, mid, hline, hrest⟩ := hbody
    obtain ⟨pieces₁, h₁⟩ := h.stmt hline
    obtain ⟨pieces₂, h₂⟩ := ih h₁ hrest
    rw [List.append_assoc] at h₂
    exact ⟨pieces₂, h₂⟩

end Progress

section Link

/-- The instructions with the way to `target` as their offsets. -/
def linkTo (target : Option String → ℤ) (pos : ℕ) (pieces : List Piece) : List Insn :=
  pieces.mapIdx fun k p =>
    p.insn.withOffset (target p.label - ((pos + codePos pieces (k + 1) : ℕ) : ℤ))

variable {target : Option String → ℤ} {pieces : List Piece} {pos : ℕ}

/-- Behind the first piece the others are linked as they are without it. -/
private theorem linkTo_cons (p : Piece) : linkTo target pos (p :: pieces) =
    p.insn.withOffset (target p.label - ((pos + p.insn.encode.length : ℕ) : ℤ)) ::
      linkTo target (pos + p.insn.encode.length) pieces := by
  have hstart : ∀ k, codePos (p :: pieces) (k + 1) = p.insn.encode.length + codePos pieces k :=
    fun k => Insn.startOf_cons ..
  rw [linkTo, List.mapIdx_cons, hstart]
  refine congrArg₂ List.cons rfl (congrArg (fun f => pieces.mapIdx f) ?_)
  funext k q
  rw [hstart, Nat.add_assoc]

/-- A piece is written with its offset. -/
private theorem place_piece {labels : Labels} {fill : ℕ → UInt32 → List UInt8} {p : Piece}
    (hfill : ∀ name, p.label = some name → ∀ at_, fill at_ ((labels.ids.lookup name).getD 0) =
      Insn.encodeOffset (target p.label - ((at_ + 4 : ℕ) : ℤ))) :
    Backpatch.place fill pos (p.items labels) = (p.insn.withOffset
      (target p.label - ((pos + p.insn.encode.length : ℕ) : ℤ))).encode := by
  have hoffset := p.offset_eq
  rw [Insn.encode_eq_head (p.insn.withOffset _), Insn.head_withOffset, Insn.offset_withOffset,
    hoffset]
  unfold Piece.items
  cases hlabel : p.label with
  | none =>
    rw [hlabel] at hoffset
    rw [Insn.encode_eq_head, hoffset]
    exact List.append_assoc ..
  | some name =>
    have hlen : p.insn.encode.length = p.insn.head.length + 4 := by
      rw [Insn.encode_eq_head, hoffset, hlabel, List.length_append]
      exact congrArg (_ + ·) (CodeBuilder.length_encodeOffset 0)
    have hhole := hfill name hlabel (pos + p.insn.head.length)
    rw [hlabel] at hhole
    dsimp only [Backpatch.place]
    rw [hhole, hlen, List.append_nil, Nat.add_assoc]
    rfl

/-- Pieces are written with their offsets. -/
theorem place_pieces {labels : Labels} {fill : ℕ → UInt32 → List UInt8}
    (hlen : ∀ at_ id, (fill at_ id).length = 4)
    (hfill : ∀ p ∈ pieces, ∀ name, p.label = some name → ∀ at_,
      fill at_ ((labels.ids.lookup name).getD 0) =
        Insn.encodeOffset (target p.label - ((at_ + 4 : ℕ) : ℤ))) :
    Backpatch.place fill pos (pieces.flatMap (Piece.items labels)) =
      Insn.encodeAll (linkTo target pos pieces) := by
  induction pieces generalizing pos with
  | nil => rfl
  | cons p pieces ih =>
    obtain ⟨hp, hrest⟩ := List.forall_mem_cons.mp hfill
    rw [List.flatMap_cons, Backpatch.place_append hlen, width_items, place_piece hp, ih hrest,
      linkTo_cons]
    rfl

end Link

/-- Where a label of a body leads. -/
def target (stmts : List Stmt) (pieces : List Piece) (label : Option String) : ℤ :=
  (label.bind fun name => (Stmt.boundAt name stmts).map (codePos pieces)).getD 0

/-- The instructions of a body. -/
def link (stmts : List Stmt) (pieces : List Piece) : List Insn :=
  linkTo (target stmts pieces) 0 pieces

/-- A function is assembled to the instructions of its body, and its labels are bound. -/
theorem assembleFn_spec {fns : FnIndex} {d : FnDecl} {base : List String} {atoms atoms' : Atoms}
    {code : List UInt8} (hatoms : atoms.names = base.eraseDups)
    (h : assembleFn fns d atoms = .ok (code, atoms')) :
    ∃ pieces, List.Forall₂ (LineAssembled fns atoms') d.insns pieces ∧
      atoms'.names = (base ++ d.insns.flatMap Line.atoms).eraseDups ∧
      code = Insn.encodeAll (link d.stmts pieces) ∧
      ∀ p ∈ pieces, ∀ name, p.label = some name → ∃ j, Stmt.boundAt name d.stmts = some j := by
  unfold assembleFn at h
  split at h
  · cases h
  rename_i st hbody
  split at h
  · cases h
  rename_i code' hfinish
  cases h
  obtain ⟨pieces, hp⟩ := (Progress.start hatoms).body hbody
  rw [List.nil_append] at hp
  obtain ⟨hholes, hcode⟩ := hp.builds.finish hfinish
  -- a blank offset is noted for every jump, so that the label of a jump is bound
  have hbound : ∀ p ∈ pieces, ∀ name, p.label = some name → ∃ id j,
      st.labels.ids.lookup name = some id ∧ Stmt.boundAt name d.stmts = some j ∧
        st.builder.labels.lookup id = some (codePos pieces j) := by
    intro p hpmem name hname
    obtain ⟨id, hid⟩ := hp.known p hpmem name hname
    have hitem : Item.hole id ∈ pieces.flatMap (Piece.items st.labels) := by
      refine List.mem_flatMap.mpr ⟨p, hpmem, ?_⟩
      rw [Piece.items, hname]
      dsimp only
      rw [hid]
      exact List.mem_cons_of_mem _ (List.mem_singleton_self _)
    obtain ⟨at_, hhole⟩ := Backpatch.exists_mem_holes hitem
    obtain ⟨pos, hpos⟩ := hholes _ hhole
    have hlookup := hp.bound name id hid
    rw [hpos] at hlookup
    obtain ⟨j, hj, rfl⟩ := Option.map_eq_some_iff.mp hlookup.symm
    exact ⟨id, j, hid, hj, hpos⟩
  refine ⟨pieces, hp.lines, hp.atoms, ?_, fun p hpmem name hname => ?_⟩
  · rw [hcode, link]
    refine place_pieces (fun _ _ => CodeBuilder.length_encodeOffset _)
      fun p hpmem name hname at_ => ?_
    obtain ⟨id, j, hid, hj, hlookup⟩ := hbound p hpmem name hname
    rw [hid, Option.getD_some, CodeBuilder.offsetTo, hlookup, target, hname, Option.bind_some, hj]
    rfl
  · obtain ⟨id, j, -, hj, -⟩ := hbound p hpmem name hname
    exact ⟨j, hj⟩

end Asm

end Yggdrasil
