import Yggdrasil.Asm.Body

/-!
# The assembler encodes the source

A text that is assembled gives the module it says, exactly if what it says fits: no operand
is left over, lists of registers have at most 255 entries, jumps are no longer than an
`i32`, and functions and atoms have an index below 2^32. The assembler checks none of these.
-/

namespace Yggdrasil

namespace Asm

section Index

variable {decls ds : List FnDecl} {fns fns' : FnIndex}

/-- The index knows the functions so far. -/
private structure Indexed (decls : List FnDecl) (fns : FnIndex) : Prop where
  sound : ∀ s f, fns.lookup s = some f → ∃ i d, decls[i]? = some d ∧ d.key = s ∧
    f.1 = UInt32.ofNat i
  complete : ∀ d ∈ decls, fns.lookup d.key ≠ none
  nodup : (decls.map FnDecl.key).Nodup

private theorem indexFns_indexed (h : Indexed decls fns)
    (hfns : indexFns decls.length ds fns = .ok fns') : Indexed (decls ++ ds) fns' := by
  induction ds generalizing decls fns with
  | nil =>
    cases hfns
    rw [List.append_nil]
    exact h
  | cons d ds ih =>
    rw [indexFns] at hfns
    split at hfns
    · cases hfns
    rename_i hnone
    have hlen : (decls ++ [d]).length = decls.length + 1 := by simp
    rw [← hlen] at hfns
    have hstep : Indexed (decls ++ [d]) ((d.key, UInt32.ofNat decls.length, d.arity) :: fns) := by
      refine ⟨fun s f hf => ?_, fun d' hd' => ?_, ?_⟩
      · rw [List.lookup_cons] at hf
        split at hf
        · next heq =>
          cases hf
          exact ⟨decls.length, d, List.getElem?_concat_length, (beq_iff_eq.mp heq).symm, rfl⟩
        · obtain ⟨i, d', hi, hkey, hf'⟩ := h.sound s f hf
          have hlt := (List.getElem?_eq_some_iff.mp hi).1
          exact ⟨i, d', (List.getElem?_append_left hlt).trans hi, hkey, hf'⟩
      · rw [List.lookup_cons]
        split
        · exact Option.some_ne_none _
        · next hne =>
          rcases List.mem_append.mp hd' with hd' | hd'
          · exact h.complete d' hd'
          · rw [List.mem_singleton.mp hd', beq_self_eq_true] at hne
            cases hne
      · rw [List.map_append]
        refine List.nodup_append.mpr ⟨h.nodup, List.nodup_singleton _, fun a ha b hb => ?_⟩
        rw [List.map_singleton, List.mem_singleton] at hb
        obtain ⟨d', hd', rfl⟩ := List.mem_map.mp ha
        rintro hkey
        rw [hb] at hkey
        exact h.complete d' hd' (hkey ▸ hnone)
    have hrest := ih hstep hfns
    rwa [List.append_assoc] at hrest

/-- The index of a function is where it is declared, cut to its width; no two functions have
one name. -/
theorem indexFns_spec (h : indexFns 0 decls [] = .ok fns) :
    (∀ s f, (fns.lookup s).map Prod.fst = some f → ∃ i d, decls[i]? = some d ∧ d.key = s ∧
      f = UInt32.ofNat i) ∧ (decls.map FnDecl.key).Nodup := by
  have hnil : Indexed [] [] := by
    refine ⟨fun s f hf => ?_, List.forall_mem_nil _, List.nodup_nil⟩
    cases hf
  have hindexed := indexFns_indexed hnil h
  rw [List.nil_append] at hindexed
  refine ⟨fun s f hf => ?_, hindexed.nodup⟩
  obtain ⟨v, hv, rfl⟩ := Option.map_eq_some_iff.mp hf
  exact hindexed.sound s v hv

/-- A function is declared under its name once. -/
theorem index_unique (hnodup : (decls.map FnDecl.key).Nodup) {i j : ℕ} {d d' : FnDecl}
    (hi : decls[i]? = some d) (hj : decls[j]? = some d') (hkey : d.key = d'.key) : i = j := by
  have hlt : i < (decls.map FnDecl.key).length := by
    rw [List.length_map]
    exact (List.getElem?_eq_some_iff.mp hi).1
  refine (List.getElem?_inj hlt hnodup).mp ?_
  rw [List.getElem?_map, List.getElem?_map, hi, hj, Option.map_some, Option.map_some, hkey]

end Index

section Functions

variable {fns : FnIndex} {ds : List FnDecl} {base : List String} {atoms atoms' : Atoms}
  {functions : List Function}

/-- A function is assembled to its body. -/
structure FnAssembled (fns : FnIndex) (atoms : Atoms) (d : FnDecl) (code : List UInt8)
    (pieces : List Piece) : Prop where
  /-- Its lines are assembled. -/
  lines : List.Forall₂ (LineAssembled fns atoms) d.insns pieces
  /-- Its code is the pieces with their offsets. -/
  code_eq : code = Insn.encodeAll (link d.stmts pieces)
  /-- The labels of jumps are bound. -/
  bound : ∀ p ∈ pieces, ∀ name, p.label = some name → ∃ j, Stmt.boundAt name d.stmts = some j

private theorem isPrefix_eraseDups (l l' : List String) : l.eraseDups <+: (l ++ l').eraseDups := by
  rw [List.eraseDups_append]
  exact List.prefix_append ..

/-- All functions are assembled, and the atoms are the names of the source. -/
theorem assembleFns_spec (hatoms : atoms.names = base.eraseDups)
    (h : assembleFns fns ds atoms = .ok (functions, atoms')) :
    functions.length = ds.length ∧ atoms'.names = (base ++ atomTexts ds).eraseDups ∧
      ∀ (i : ℕ) (d : FnDecl) (f : Function), ds[i]? = some d → functions[i]? = some f →
        ∃ pieces, FnAssembled fns atoms' d f.code pieces := by
  induction ds generalizing base atoms functions with
  | nil =>
    cases h
    refine ⟨rfl, ?_, fun i d f hd => ?_⟩
    · rw [hatoms]
      exact congrArg List.eraseDups (List.append_nil base).symm
    · cases hd
  | cons d ds ih =>
    obtain ⟨⟨code, mid⟩, hfn, h⟩ := bind_eq_ok.mp h
    obtain ⟨⟨rest, _⟩, hrest, h⟩ := bind_eq_ok.mp h
    cases h
    cases hok : assembleFn fns d atoms with
    | error e =>
      rw [hok] at hfn
      cases hfn
    | ok r =>
      rw [hok] at hfn
      cases hfn
      obtain ⟨pieces, hlines, hmid, hcode, hbound⟩ := assembleFn_spec hatoms hok
      obtain ⟨hlen, hlast, hfns⟩ := ih (Atoms.names_intern_eraseDups hmid d.name) hrest
      have htexts : base ++ d.insns.flatMap Line.atoms ++ [d.name] ++ atomTexts ds =
          base ++ atomTexts (d :: ds) := by
        simp [atomTexts]
      rw [htexts] at hlast
      refine ⟨congrArg (· + 1) hlen, hlast, fun i d' f hd hf => ?_⟩
      cases i with
      | succ i => exact hfns i d' f hd hf
      | zero =>
        cases hd
        cases hf
        have hkeep : mid.names <+: atoms'.names := by
          rw [hmid, hlast, ← htexts, List.append_assoc _ [d.name]]
          exact isPrefix_eraseDups ..
        refine ⟨pieces, hlines.imp fun line p hline => ?_, hcode, hbound⟩
        exact hline.mono fun x i hx => Atoms.lookup_of_isPrefix hkeep hx

end Functions

section Lines

variable {fns : FnIndex} {atoms : Atoms} {line : Line} {p : Piece} {d : FnDecl}
  {pieces : List Piece} {code : List UInt8}

/-- The signature of a line is that of its instruction. -/
theorem signature_of_op {i : Insn} {sig : Signature} (hop : ofMnemonic line.1 = some i.op)
    (hsig : Signature.ofOp i.op = some sig) : line.signature = some sig := by
  rw [Line.signature, hop, Option.bind_some, hsig]

/-- The size of a line is the length of its encoding. -/
theorem LineAssembled.size_eq (h : LineAssembled fns atoms line p) :
    p.insn.encode.length = line.size := by
  obtain ⟨sig, used, rest, hsig, hops, hrest, hoperands⟩ := h.operands
  rw [Line.size, signature_of_op h.op hsig, Insn.length_encode hsig, ← hoperands.length_eq, hops]
  change sig.size used.length = sig.size (used ++ rest).length
  cases hmore : sig.more with
  | true => rw [hrest hmore, List.append_nil]
  | false => simp only [Signature.size, hmore, Bool.false_eq_true, if_false]

/-- Pieces start where the source says. -/
theorem FnAssembled.codePos_eq (h : FnAssembled fns atoms d code pieces) (k : ℕ) :
    codePos pieces k = d.pos k := by
  have hsizes : (raw pieces).map (fun i => i.encode.length) = d.insns.map Line.size := by
    rw [raw, List.map_map]
    refine (List.forall₂_eq_eq_eq ▸ List.forall₂_map_left_iff.mpr
      (List.forall₂_map_right_iff.mpr (h.lines.imp fun _ _ hline => ?_))).symm
    exact hline.size_eq.symm
  rw [codePos, Insn.startOf_eq_sum, hsizes, FnDecl.pos, List.map_take]

/-- Linking does not move instructions. -/
theorem startOf_link (stmts : List Stmt) (pieces : List Piece) (k : ℕ) :
    Insn.startOf (link stmts pieces) k = codePos pieces k := by
  have hlengths : (link stmts pieces).map (fun i => i.encode.length) =
      (raw pieces).map fun i => i.encode.length := by
    refine List.ext_getElem? fun n => ?_
    rw [link, linkTo, raw, List.map_map, List.getElem?_map, List.getElem?_mapIdx,
      List.getElem?_map, Option.map_map]
    exact congrArg (fun f => Option.map f pieces[n]?)
      (funext fun p => Insn.length_withOffset _ p.insn)
  rw [codePos, Insn.startOf_eq_sum, Insn.startOf_eq_sum, hlengths]

private theorem forall₂_at {α β : Type} {R : α → β → Prop} {l : List α} {l' : List β}
    (h : List.Forall₂ R l l') {k : ℕ} {a : α} {b : β} (ha : l[k]? = some a)
    (hb : l'[k]? = some b) : R a b := by
  obtain ⟨hlt, rfl⟩ := List.getElem?_eq_some_iff.mp ha
  obtain ⟨hlt', rfl⟩ := List.getElem?_eq_some_iff.mp hb
  exact h.get hlt hlt'

/-- The instructions that are linked. -/
theorem link_getElem? {stmts : List Stmt} {k : ℕ} {i : Insn}
    (h : (link stmts pieces)[k]? = some i) :
    ∃ p, pieces[k]? = some p ∧ i = p.insn.withOffset
      (target stmts pieces p.label - (codePos pieces (k + 1) : ℤ)) := by
  rw [link, linkTo, List.getElem?_mapIdx] at h
  obtain ⟨p, hp, rfl⟩ := Option.map_eq_some_iff.mp h
  refine ⟨p, hp, ?_⟩
  rw [Nat.zero_add]

/-- No operand is left over if the number of operands fits. -/
private theorem operands_of_takes (h : LineAssembled fns atoms line p) {sig : Signature}
    (hsig : line.signature = some sig) (htakes : sig.Takes line.2.length) :
    Signature.ofOp p.insn.op = some sig ∧
      List.Forall₂ (Assembled fns p.label atoms) line.2 p.insn.operands := by
  obtain ⟨sig', used, rest, hsig', hops, hrest, hoperands⟩ := h.operands
  have heq := (signature_of_op h.op hsig').symm.trans hsig
  cases heq
  have hnil : rest = [] := by
    cases hmore : sig.more with
    | true => exact hrest hmore
    | false =>
      have hlen := (Insn.length_operands hsig').2 hmore
      rw [Signature.Takes, hops, List.length_append, hoperands.length_eq, hlen, hmore] at htakes
      refine List.eq_nil_of_length_eq_zero ?_
      have hlt : sig.kinds.length + rest.length < sig.kinds.length + 1 := htakes.2
      omega
  rw [hnil, List.append_nil] at hops
  rw [hops]
  exact ⟨hsig', hoperands⟩

variable {decls : List FnDecl} {insns : List Insn} {k : ℕ} {off : ℤ}

/-- What an operand is assembled to is what it denotes, if it fits. -/
private theorem denotes_of_fits {q : ℕ} {s : String} {x : Operand} {sig : Signature}
    (hsound : ∀ s f, (fns.lookup s).map Prod.fst = some f → ∃ i d, decls[i]? = some d ∧
      d.key = s ∧ f = UInt32.ofNat i)
    (hnames : atoms.names = (atomTexts decls).eraseDups)
    (hlabel : ∀ name, p.label = some name → ∃ j, Stmt.boundAt name d.stmts = some j ∧
      (Insn.startOf insns (k + 1) : ℤ) + off = Insn.startOf insns j)
    (hfits : LineFits decls d k line sig) (hkind : x.kind ≠ .reg → sig.kinds[q]? = some x.kind)
    (hs : line.2[q]? = some s) (hx : Assembled fns p.label atoms s x) :
    Denotes decls atoms.names d insns k s (x.withOffset off) := by
  cases x with
  | reg r => exact hx
  | int v => exact hx
  | byte n => exact hx
  | atom a =>
    have hlt := hfits.atom q s (hkind (by simp [Operand.kind])) hs
    have hindex := atoms.index_eq s
    rw [show atoms.index.lookup s = some a from hx] at hindex
    split at hindex
    · next hmem =>
      cases hindex
      change atoms.names[(UInt32.ofNat _).toNat]? = some s
      rw [hnames] at hmem ⊢
      rw [UInt32.toNat_ofNat', Nat.mod_eq_of_lt hlt]
      exact List.getElem?_idxOf hmem
    · cases hindex
  | callee f =>
    obtain ⟨i, d', hi, hkey, rfl⟩ := hsound s f hx
    have hlt := hfits.callee q s i d' (hkind (by simp [Operand.kind])) hs hi hkey
    refine ⟨d', ?_, hkey⟩
    rwa [UInt32.toNat_ofNat', Nat.mod_eq_of_lt hlt]
  | label off' => exact hlabel s hx

/-- A line that fits is assembled to what it says. -/
private theorem exact_of_fits {sig : Signature} (h : LineAssembled fns atoms line p)
    (hsound : ∀ s f, (fns.lookup s).map Prod.fst = some f → ∃ i d, decls[i]? = some d ∧
      d.key = s ∧ f = UInt32.ofNat i)
    (hnames : atoms.names = (atomTexts decls).eraseDups)
    (hlabel : ∀ name, p.label = some name → ∃ j, Stmt.boundAt name d.stmts = some j ∧
      (Insn.startOf insns (k + 1) : ℤ) + off = Insn.startOf insns j)
    (hsig : line.signature = some sig) (hfits : LineFits decls d k line sig) :
    LineExact decls atoms.names d insns k line (p.insn.withOffset off) := by
  obtain ⟨hsig', hoperands⟩ := operands_of_takes h hsig hfits.takes
  refine ⟨by rw [Insn.op_withOffset, h.op], ?_⟩
  rw [Insn.operands_withOffset, List.forall₂_map_right_iff]
  refine List.forall₂_iff_get.mpr ⟨hoperands.length_eq, fun q hq hq' => ?_⟩
  have hx := List.getElem?_eq_getElem hq'
  exact denotes_of_fits hsound hnames hlabel hfits (Insn.kind_at hsig' hx)
    (List.getElem?_eq_getElem hq) (hoperands.get hq hq')

/-- A line that fits is encoded in full. -/
private theorem encodable_of_fits {sig : Signature} (h : LineAssembled fns atoms line p)
    (hoff : ∀ name j, p.label = some name → Stmt.boundAt name d.stmts = some j →
      off = (d.pos j : ℤ) - d.pos (k + 1))
    (hbound : ∀ name, p.label = some name → ∃ j, Stmt.boundAt name d.stmts = some j)
    (hsig : line.signature = some sig) (hfits : LineFits decls d k line sig) :
    (p.insn.withOffset off).Encodable := by
  obtain ⟨hsig', hoperands⟩ := operands_of_takes h hsig hfits.takes
  have hsig'' : Signature.ofOp (p.insn.withOffset off).op = some sig := by
    rwa [Insn.op_withOffset]
  refine (Insn.encodable_iff hsig'').mpr ⟨?_, fun off' hoff' => ?_⟩
  · rw [Insn.operands_withOffset, List.length_map, ← hoperands.length_eq]
    exact hfits.takes
  · rw [Insn.offset_withOffset] at hoff'
    obtain ⟨blank, hblank, rfl⟩ := Option.map_eq_some_iff.mp hoff'
    obtain ⟨q, hq, hx⟩ := List.getElem_of_mem (Insn.mem_of_offset hblank)
    have hx' : p.insn.operands[q]? = some (.label blank) := by
      rw [List.getElem?_eq_getElem hq, hx]
    have hq' : q < line.2.length := by rwa [hoperands.length_eq]
    have hs := List.getElem?_eq_getElem hq'
    have hlabel : p.label = some line.2[q] := forall₂_at hoperands hs hx'
    obtain ⟨j, hj⟩ := hbound _ hlabel
    rw [hoff _ j hlabel hj]
    exact hfits.jump q _ j (Insn.kind_at hsig' hx' (by simp [Operand.kind])) hs hj

/-- A function that fits is assembled to what it says. -/
theorem FnAssembled.exact (h : FnAssembled fns atoms d code pieces)
    (hsound : ∀ s f, (fns.lookup s).map Prod.fst = some f → ∃ i d, decls[i]? = some d ∧
      d.key = s ∧ f = UInt32.ofNat i)
    (hnames : atoms.names = (atomTexts decls).eraseDups)
    (hfits : ∀ (k : ℕ) (line : Line) (sig : Signature), d.insns[k]? = some line →
      line.signature = some sig → LineFits decls d k line sig) :
    FnExact decls atoms.names d code := by
  have hlen : (link d.stmts pieces).length = d.insns.length := by
    rw [link, linkTo, List.length_mapIdx, h.lines.length_eq]
  have htarget : ∀ p ∈ pieces, ∀ name j, p.label = some name →
      Stmt.boundAt name d.stmts = some j → target d.stmts pieces p.label = codePos pieces j := by
    intro p _ name j hname hj
    rw [target, hname, Option.bind_some, hj]
    rfl
  have hline : ∀ (k : ℕ) (i : Insn), (link d.stmts pieces)[k]? = some i →
      ∃ line p sig, d.insns[k]? = some line ∧ pieces[k]? = some p ∧
        LineAssembled fns atoms line p ∧ line.signature = some sig ∧ i = p.insn.withOffset
          (target d.stmts pieces p.label - (codePos pieces (k + 1) : ℤ)) := by
    intro k i hi
    obtain ⟨p, hp, rfl⟩ := link_getElem? hi
    have hlt : k < d.insns.length := hlen ▸ (List.getElem?_eq_some_iff.mp hi).1
    have hat := List.getElem?_eq_getElem hlt
    have hassembled := forall₂_at h.lines hat hp
    obtain ⟨sig, -, -, hsig, -⟩ := hassembled.operands
    exact ⟨_, p, sig, hat, hp, hassembled, signature_of_op hassembled.op hsig, rfl⟩
  refine ⟨link d.stmts pieces, Insn.split_eq_some_iff.mpr ⟨h.code_eq, fun i hi => ?_⟩, hlen,
    fun k line i hk hi => ?_⟩
  · obtain ⟨k, hk, rfl⟩ := List.getElem_of_mem hi
    obtain ⟨line, p, sig, hat, hp, hassembled, hsig, heq⟩ := hline k _ (List.getElem?_eq_getElem hk)
    have hmem := List.mem_of_getElem? hp
    rw [heq]
    refine encodable_of_fits hassembled (fun name j hname hj => ?_) (h.bound p hmem) hsig
      (hfits k line sig hat hsig)
    rw [htarget p hmem name j hname hj, h.codePos_eq, h.codePos_eq]
  · obtain ⟨line', p, sig, hat, hp, hassembled, hsig, rfl⟩ := hline k i hi
    have hmem := List.mem_of_getElem? hp
    cases hk.symm.trans hat
    refine exact_of_fits hassembled hsound hnames (fun name hname => ?_) hsig
      (hfits k line sig hat hsig)
    obtain ⟨j, hj⟩ := h.bound p hmem name hname
    refine ⟨j, hj, ?_⟩
    rw [htarget p hmem name j hname hj, startOf_link, startOf_link]
    omega

/-- The instructions of an exact function start where the source says. -/
private theorem startOf_of_exact {names : List String} (hlen : insns.length = d.insns.length)
    (hexact : ∀ (k : ℕ) (line : Line) (i : Insn), d.insns[k]? = some line → insns[k]? = some i →
      LineExact decls names d insns k line i) (k : ℕ) : Insn.startOf insns k = d.pos k := by
  have hsizes : insns.map (fun i => i.encode.length) = d.insns.map Line.size := by
    refine List.ext_getElem (by rw [List.length_map, List.length_map, hlen]) fun n hn hn' => ?_
    rw [List.length_map] at hn hn'
    rw [List.getElem_map, List.getElem_map]
    have hline := hexact n _ _ (List.getElem?_eq_getElem hn') (List.getElem?_eq_getElem hn)
    obtain ⟨sig, hsig⟩ := Signature.exists_ofOp hline.op
    rw [Insn.length_encode hsig, Line.size, signature_of_op hline.op hsig,
      ← hline.operands.length_eq]
    rfl
  rw [Insn.startOf_eq_sum, hsizes, FnDecl.pos, List.map_take]

/-- A function that is assembled to what it says fits. -/
theorem FnExact.fits {names : List String} (h : FnExact decls names d code)
    (hkeys : (decls.map FnDecl.key).Nodup) (hnodup : names.Nodup)
    (hnames : names = (atomTexts decls).eraseDups) {sig : Signature}
    (hk : d.insns[k]? = some line) (hsig : line.signature = some sig) :
    LineFits decls d k line sig := by
  obtain ⟨insns, hsplit, hlen, hexact⟩ := h
  have hlt : k < insns.length := by
    rw [hlen]
    exact (List.getElem?_eq_some_iff.mp hk).1
  have hi := List.getElem?_eq_getElem hlt
  have hstart := startOf_of_exact hlen hexact
  obtain ⟨hop, hoperands⟩ := hexact k line _ hk hi
  have hsig' : Signature.ofOp insns[k].op = some sig := by
    rwa [Line.signature, hop, Option.bind_some] at hsig
  have hok := (Insn.split_eq_some_iff.mp hsplit).2 _ (List.getElem_mem hlt)
  obtain ⟨htakes, hoffset⟩ := (Insn.encodable_iff hsig').mp hok
  -- the operand a text stands for is of the kind the signature says
  have hoperand : ∀ (q : ℕ) (s : String) (kind : OperandKind), sig.kinds[q]? = some kind →
      line.2[q]? = some s → ∃ x, x ∈ insns[k].operands ∧ x.kind = kind ∧
        Denotes decls names d insns k s x := by
    intro q s kind hkind hs
    have hq : q < insns[k].operands.length := by
      rw [← hoperands.length_eq]
      exact (List.getElem?_eq_some_iff.mp hs).1
    have hx := List.getElem?_eq_getElem hq
    refine ⟨_, List.getElem_mem hq, ?_, forall₂_at hoperands hs hx⟩
    obtain ⟨n, hkinds, -⟩ := Insn.operands_kinds hsig'
    have hkind' : (sig.kinds ++ List.replicate n .reg)[q]? = some kind := by
      rw [List.getElem?_append_left (List.getElem?_eq_some_iff.mp hkind).1, hkind]
    rw [← hkinds, List.getElem?_map, hx, Option.map_some] at hkind'
    exact Option.some.inj hkind'
  refine ⟨?_, ?_, ?_, ?_⟩
  · rwa [hoperands.length_eq]
  · intro q s j hkind hs hj
    obtain ⟨x, hmem, hx, hdenotes⟩ := hoperand q s _ hkind hs
    cases x with
    | label off =>
      obtain ⟨j', hj', hoff⟩ := hdenotes
      cases hj.symm.trans hj'
      have hrange := hoffset off (Insn.offset_of_mem hmem)
      rw [hstart, hstart] at hoff
      omega
    | _ => cases hx
  · intro q s i d' hkind hs hi' hkey
    obtain ⟨x, -, hx, hdenotes⟩ := hoperand q s _ hkind hs
    cases x with
    | callee f =>
      obtain ⟨d'', hf, hkey'⟩ := hdenotes
      rw [index_unique hkeys hi' hf (hkey.trans hkey'.symm)]
      exact f.toNat_lt
    | _ => cases hx
  · intro q s hkind hs
    obtain ⟨x, -, hx, hdenotes⟩ := hoperand q s _ hkind hs
    cases x with
    | atom a =>
      obtain ⟨hlt', rfl⟩ := List.getElem?_eq_some_iff.mp hdenotes
      rw [← hnames, hnodup.idxOf_getElem]
      exact a.toNat_lt
    | _ => cases hx

end Lines

/-! ### The lines of a text -/

/-- A line, without its comment and the blanks around it, is one of a body: it is not empty, no
`module` or `fn` line and no closing brace. -/
def IsCode (line : List Char) : Prop :=
  line ≠ [] ∧ stripStart "module ".toList line = none ∧ stripStart "fn ".toList line = none ∧
    line ≠ ['}']

instance : DecidablePred IsCode := fun _ => inferInstanceAs (Decidable (_ ∧ _))

/-- The lines of bodies among the lines of a text, which are numbered from `ln + 1` on. -/
def codeLines : ℕ → List (List Char) → List (ℕ × List Char)
  | _, [] => []
  | ln, raw :: raws =>
    let line := trim (raw.takeWhile (· ≠ ';'))
    (if IsCode line then [(ln + 1, line)] else []) ++ codeLines (ln + 1) raws

/-- The lines of bodies read so far. -/
private def ReadState.body (s : ReadState) : List (ℕ × List Char) :=
  s.decls.flatMap FnDecl.body ++ (s.cur.map FnDecl.body).getD []

private theorem fnHeader_body {rest : List Char} {d : FnDecl} (h : fnHeader rest = .ok d) :
    d.body = [] := by
  obtain ⟨⟨sig, regs⟩, -, h⟩ := bind_eq_ok.mp h
  obtain ⟨⟨name, arity⟩, -, h⟩ := bind_eq_ok.mp h
  obtain ⟨_, -, h⟩ := bind_eq_ok.mp h
  obtain ⟨_, -, h⟩ := bind_eq_ok.mp h
  obtain ⟨_, -, h⟩ := bind_eq_ok.mp h
  cases h
  rfl

/-- A line that is read is kept if it is one of a body, and not otherwise. -/
private theorem readLine_body {ln : ℕ} {raw : List Char} {s s' : ReadState}
    (h : readLine ln raw s = .ok s') : s'.body = s.body ++
      if IsCode (trim (raw.takeWhile (· ≠ ';'))) then [(ln + 1, trim (raw.takeWhile (· ≠ ';')))]
      else [] := by
  rw [readLine] at h
  generalize trim (raw.takeWhile (· ≠ ';')) = line at h ⊢
  split at h
  · rename_i hskip
    cases h
    rw [if_neg, List.append_nil]
    rintro ⟨hne, hmodule, -⟩
    rcases hskip with hnil | hsome
    · exact hne hnil
    · rw [hmodule] at hsome
      cases hsome
  rename_i hline
  rw [not_or, Option.not_isSome_iff_eq_none] at hline
  split at h
  · rename_i rest hfn
    split at h
    · cases h
    · rename_i hcur
      obtain ⟨d, hd, h⟩ := bind_eq_ok.mp h
      cases h
      rw [if_neg fun hcode => by cases hfn.symm.trans hcode.2.2.1]
      rw [Option.not_isSome_iff_eq_none] at hcur
      simp only [ReadState.body, hcur, Option.map_some, Option.map_none, Option.getD_some,
        Option.getD_none, fnHeader_body hd, List.append_nil]
  · rename_i hfn
    split at h
    · rename_i d hcur
      split at h
      · rename_i hbrace
        cases h
        rw [if_neg fun hcode => hcode.2.2.2 hbrace]
        simp [ReadState.body, hcur]
      · rename_i hbrace
        cases h
        rw [if_pos ⟨hline.1, hline.2, hfn, hbrace⟩]
        simp [ReadState.body, hcur]
    · split at h <;> cases h

private theorem readLines_body {raws : List (List Char)} {ln : ℕ} {s s' : ReadState}
    (h : readLines ln raws s = .ok s') : s'.body = s.body ++ codeLines ln raws := by
  induction raws generalizing ln s with
  | nil =>
    cases h
    exact (List.append_nil _).symm
  | cons raw raws ih =>
    obtain ⟨mid, hmid, h⟩ := bind_eq_ok.mp h
    rw [ih h, readLine_body hmid, List.append_assoc]
    rfl

/-- The bodies of the declarations are the lines of the text that belong to a body, with their
numbers, in order: no other line is kept and none is lost. -/
theorem readDecls_body {src : String} {decls : List FnDecl} (h : readDecls src = .ok decls) :
    decls.flatMap FnDecl.body = codeLines 0 (lines src.toList) := by
  obtain ⟨s, hs, h⟩ := bind_eq_ok.mp h
  have hbody := readLines_body hs
  split at h
  · cases h
  · rename_i hcur
    cases h
    rw [Option.not_isSome_iff_eq_none] at hcur
    simpa [ReadState.body, hcur] using hbody

/-- A line of a body is a label exactly if it ends in a colon, whatever is before it. -/
theorem ofLine_eq_label_iff {line : List Char} {name : String} :
    Stmt.ofLine line = .label name ↔ line = name.toList ++ [':'] := by
  rw [Stmt.ofLine, stripEnd]
  by_cases hend : line.getLast? = some ':'
  · rw [if_pos hend]
    obtain ⟨start, rfl⟩ := List.getLast?_eq_some_iff.mp hend
    simp [String.ext_iff, eq_comm]
  · rw [if_neg hend]
    refine ⟨nofun, fun h => absurd ?_ hend⟩
    rw [h, List.getLast?_append]
    rfl

section Module

variable {src : String} {m : Module} {decls : List FnDecl}

/-- What the module of a source is made of. -/
private theorem assemble_spec (h : assemble src = .ok m) :
    ∃ decls fns atoms, readDecls src = .ok decls ∧ m.atoms = atoms.names ∧
      (∀ s f, (fns.lookup s).map Prod.fst = some f → ∃ i d, decls[i]? = some d ∧ d.key = s ∧
        f = UInt32.ofNat i) ∧
      (decls.map FnDecl.key).Nodup ∧ atoms.names = (atomTexts decls).eraseDups ∧
      m.functions.length = decls.length ∧
      ∀ (i : ℕ) (d : FnDecl) (f : Function), decls[i]? = some d → m.functions[i]? = some f →
        ∃ pieces, FnAssembled fns atoms d f.code pieces := by
  obtain ⟨decls, hdecls, h⟩ := bind_eq_ok.mp h
  obtain ⟨fns, hfns, h⟩ := bind_eq_ok.mp h
  obtain ⟨⟨functions, atoms⟩, hfunctions, h⟩ := bind_eq_ok.mp h
  cases h
  obtain ⟨hsound, hkeys⟩ := indexFns_spec hfns
  have hempty : Atoms.empty.names = ([] : List String).eraseDups := rfl
  obtain ⟨hlen, hnames, hassembled⟩ := assembleFns_spec hempty hfunctions
  rw [List.nil_append] at hnames
  exact ⟨decls, fns, atoms, hdecls, rfl, hsound, hkeys, hnames, hlen, hassembled⟩

/-- A source that fits is assembled to what it says. -/
theorem Fits.exact (hfits : Fits decls) (h : assemble src = .ok m)
    (hdecls : readDecls src = .ok decls) : Exact decls m := by
  obtain ⟨_, fns, atoms, hdecls', hatoms, hsound, -, hnames, hlen, hassembled⟩ := assemble_spec h
  cases hdecls.symm.trans hdecls'
  refine ⟨hatoms ▸ atoms.nodup, hlen, fun i d f hd hf => ?_⟩
  obtain ⟨pieces, hpieces⟩ := hassembled i d f hd hf
  rw [hatoms]
  exact hpieces.exact hsound hnames (hfits d (List.mem_of_getElem? hd))

/-- A source that is assembled to what it says fits. -/
theorem Exact.fits (hexact : Exact decls m) (h : assemble src = .ok m)
    (hdecls : readDecls src = .ok decls) : Fits decls := by
  obtain ⟨_, fns, atoms, hdecls', hatoms, -, hkeys, hnames, hlen, -⟩ := assemble_spec h
  cases hdecls.symm.trans hdecls'
  intro d hd k line sig hk hsig
  obtain ⟨i, hi⟩ := List.getElem?_of_mem hd
  have hlt : i < m.functions.length := by
    rw [hlen]
    exact (List.getElem?_eq_some_iff.mp hi).1
  have hfn := hexact.code i d _ hi (List.getElem?_eq_getElem hlt)
  exact hfn.fits hkeys hexact.atoms (hatoms.trans hnames) hk hsig

/-- A text that is assembled gives a module that says exactly what the text does, if and only
if what it says fits. -/
theorem assemble_exact_iff (h : assemble src = .ok m) :
    ∃ decls, readDecls src = .ok decls ∧ (Exact decls m ↔ Fits decls) := by
  obtain ⟨decls, _, _, hdecls, -⟩ := assemble_spec h
  exact ⟨decls, hdecls, fun hexact => hexact.fits h hdecls, fun hfits => hfits.exact h hdecls⟩

end Module

/-- The text of a function, with the body in braces on lines of its own. -/
def fnText (header : String) (body : List Char) : String :=
  String.ofList (header.toList ++ [' ', '{', '\n'] ++ body ++ ['\n', '}'])

/-- A function that calls itself in a loop. -/
def spinText : String :=
  fnText "fn spin/0 regs=2" "loop:\n  call r1, spin/0\n  jmp loop".toList

/-- The declaration it is read as. -/
def spinDecl : FnDecl :=
  ⟨"spin", 0, 2, [(2, "loop:".toList), (3, "call r1, spin/0".toList), (4, "jmp loop".toList)]⟩

/-- The module it is assembled to. -/
def spinModule : Module :=
  ⟨["spin"], [⟨0, 0, 2, [18, 1, 0, 0, 0, 0, 0, 16, 244, 255, 255, 255]⟩]⟩

private theorem spin_call : LineFits [spinDecl] spinDecl 0 ("call", ["r1", "spin/0"])
    ⟨[.reg, .callee], true⟩ := by
  refine ⟨⟨by decide, by decide⟩, fun p s j hkind => ?_, fun p s i d' _ _ hi _ => ?_,
    fun p s hkind => ?_⟩
  · exact absurd (List.mem_of_getElem? hkind) (by decide)
  · have hlt : i < 1 := (List.getElem?_eq_some_iff.mp hi).1
    omega
  · exact absurd (List.mem_of_getElem? hkind) (by decide)

private theorem spin_jmp : LineFits [spinDecl] spinDecl 1 ("jmp", ["loop"])
    ⟨[.label], false⟩ := by
  refine ⟨⟨by decide, by decide⟩, fun p s j _ hs hj => ?_, fun p s i d' hkind => ?_,
    fun p s hkind => ?_⟩
  · have hloop : s = "loop" := List.mem_singleton.mp (List.mem_of_getElem? hs)
    have hbound : Stmt.boundAt "loop" spinDecl.stmts = some 0 := by decide +kernel
    have hstart : spinDecl.pos 0 = 0 := rfl
    have hnext : spinDecl.pos 2 = 12 := by decide +kernel
    rw [hloop, hbound] at hj
    cases hj
    rw [hstart, hnext]
    decide
  · exact absurd (List.mem_of_getElem? hkind) (by decide)
  · exact absurd (List.mem_of_getElem? hkind) (by decide)

private theorem spin_fits : Fits [spinDecl] := by
  have hinsns : spinDecl.insns = [("call", ["r1", "spin/0"]), ("jmp", ["loop"])] := by
    decide +kernel
  intro d hd k line sig hk hsig
  rw [List.mem_singleton] at hd
  subst hd
  rw [hinsns] at hk
  match k, hk with
  | 0, hk =>
    cases hk
    cases hsig
    exact spin_call
  | 1, hk =>
    cases hk
    cases hsig
    exact spin_jmp

/-- The loop says what its text does. -/
theorem spin_exact : assemble spinText = .ok spinModule ∧ Exact [spinDecl] spinModule := by
  have hassemble : assemble spinText = .ok spinModule := by decide +kernel
  have hdecls : readDecls spinText = .ok [spinDecl] := by decide +kernel
  obtain ⟨decls, hdecls', hiff⟩ := assemble_exact_iff hassemble
  cases hdecls.symm.trans hdecls'
  exact ⟨hassemble, hiff.mpr spin_fits⟩

/-- A line with a tuple of 256 elements. -/
def wideBody : List Char := "make_tuple r0".toList ++ (List.replicate 256 ",r0".toList).flatten

/-- A function with this line. -/
def wideText : String := fnText "fn wide/0 regs=1" wideBody

/-- The declaration it is read as. -/
def wideDecl : FnDecl := ⟨"wide", 0, 1, [(2, wideBody)]⟩

/-- The code it is assembled to. -/
def wideCode : List UInt8 := [6, 0, 0] ++ List.replicate 256 0

/-- The module it is assembled to. -/
def wideModule : Module := ⟨["wide"], [⟨0, 0, 1, wideCode⟩]⟩

private theorem wide_decls : readDecls wideText = .ok [wideDecl] := by
  unfold readDecls wideText fnText
  rw [String.toList_ofList]
  decide +kernel

private theorem wide_assembles : assemble wideText = .ok wideModule := by
  unfold assemble
  rw [wide_decls]
  decide +kernel

private theorem wide_insns : wideDecl.insns[0]? = some ("make_tuple", List.replicate 257 "r0") := by
  decide +kernel

/-- A function that returns two values. -/
def surplusText : String := fnText "fn surplus/0 regs=2" "ret r0, r1".toList

/-- The declaration it is read as. -/
def surplusDecl : FnDecl := ⟨"surplus", 0, 2, [(2, "ret r0, r1".toList)]⟩

/-- The module it is assembled to. -/
def surplusModule : Module := ⟨["surplus"], [⟨0, 0, 2, [19, 0]⟩]⟩

/-- The count of 256 elements is cut to 0, so that the elements are read as instructions. The
second value to return is dropped. -/
theorem wide_inexact :
    (assemble wideText = .ok wideModule ∧ readDecls wideText = .ok [wideDecl] ∧
      Insn.split wideCode = some (.makeTuple 0 [] :: List.replicate 256 .nop) ∧
      ¬Exact [wideDecl] wideModule) ∧
    assemble surplusText = .ok surplusModule ∧ readDecls surplusText = .ok [surplusDecl] ∧
      ¬Exact [surplusDecl] surplusModule := by
  have hsurplus : assemble surplusText = .ok surplusModule := by decide +kernel
  have hdecls : readDecls surplusText = .ok [surplusDecl] := by decide +kernel
  refine ⟨⟨wide_assembles, wide_decls, by decide +kernel, fun hexact => ?_⟩, hsurplus, hdecls,
    fun hexact => ?_⟩
  · have hfits := hexact.fits wide_assembles wide_decls
    have hline := hfits wideDecl (List.mem_cons_self ..) 0 _ ⟨[.reg], true⟩ wide_insns rfl
    have htakes : (List.replicate 257 "r0").length < 257 := hline.takes.2
    rw [List.length_replicate] at htakes
    exact Nat.lt_irrefl _ htakes
  · have hfits := hexact.fits hsurplus hdecls
    have hline := hfits surplusDecl (List.mem_cons_self ..) 0 ("ret", ["r0", "r1"])
      ⟨[.reg], false⟩ (by decide +kernel) rfl
    have htakes : 2 < 2 := hline.takes.2
    exact Nat.lt_irrefl _ htakes

end Asm

end Yggdrasil
