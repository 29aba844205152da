import Yggdrasil.Term.CopyProgress

/-!
# Copies are exact

`copy_term` needs the words of all objects on all paths of the term. What it returns has the
same value and is made of new objects.
-/

namespace Yggdrasil

open Evac

variable {mem mem' : Mem} {space space' : Set ℕ} {t : Term} {n : ℕ}

section Objects

variable {st st' : Store} {w p : ℕ} {new : Set ℕ}

/-- A new object at `p` with the kind, keys and bytes of an old one, and copies of its parts,
is a copy of it. -/
private theorem copied_object (hspace : TermSpace st.mem space) (ht : t.Valid space)
    (hbox : t.isBoxed = true) (hadv : st.Advanced (next st.heap) w st')
    (hreg : Region st'.mem (next st.heap) (next st.heap + w) new)
    (hbound : next st.heap + w ≤ 2 ^ 61) (hlo : next st.heap ≤ p)
    (hhi : p + sizeAt st'.mem p ≤ next st.heap + w)
    (hapart : ∀ a ∈ new, p + sizeAt st'.mem p ≤ a ∨ a + sizeAt st'.mem a ≤ p)
    (hk : boxKind (st'.mem p) = boxKind (st.mem t.addr))
    (hstart : refStart (st'.mem p) = refStart (st.mem t.addr))
    (hcount : refCount (st'.mem p) = refCount (st.mem t.addr))
    (hkeys : ∀ j, IsKey (st.mem t.addr) j → st'.mem (p + j) = st.mem (t.addr + j))
    (hbytes : boxKind (st.mem t.addr) = some .binary →
      (Term.ofAddr p).binBytes st'.mem = t.binBytes st.mem)
    (hparts : ∀ i < refCount (st.mem t.addr),
      Term.Valid new ⟨st'.mem (p + (refStart (st.mem t.addr) + i))⟩ ∧
      ∀ m, DepthLt st.mem m (t.child st.mem i) →
        Term.value st'.mem m ⟨st'.mem (p + (refStart (st.mem t.addr) + i))⟩ =
          (t.child st.mem i).value st.mem m) :
    Copied st w t (Term.ofAddr p) st' := by
  have ha := ht.2 hbox
  have hok := hspace.ok _ ha
  have hkind : (objWords (st'.mem p)).isSome = true := by
    rw [objWords, Option.isSome_map, hk]
    have hsome := hok.kind
    rwa [objWords, Option.isSome_map] at hsome
  have hpos := sizeAt_pos hkind
  have haddr : (Term.ofAddr p).addr = p := Term.addr_ofAddr (by omega)
  refine ⟨hadv, fun m hdepth => ?_, insert p new, hreg.insert hkind (fun j hj => ?_)
    (fun j hj => ?_) hlo hhi hbound hapart, Term.valid_ofAddr (Set.mem_insert p new) (by omega)⟩
  · cases m with
    | zero => exact hdepth.elim
    | succ m =>
      refine Term.value_congr hbox (Term.isBoxed_ofAddr p) hok.kind (by rw [haddr, hk])
        (by rw [haddr, hcount]) (fun i hi => by rw [haddr, hkeys _ hi]) hbytes fun i hi => ?_
      rw [Term.child, haddr, hstart]
      exact (hparts i hi).2 m (hdepth hbox i hi)
  · obtain ⟨hle, hlt⟩ := hj
    rw [hstart] at hle hlt
    rw [hcount] at hlt
    have hpart := (hparts (j - refStart (st.mem t.addr)) (by omega)).1
    rwa [Nat.add_sub_cancel' hle] at hpart
  · have hj' : IsKey (st.mem t.addr) j := by
      rw [IsKey, hk, hstart] at hj
      exact hj
    rw [hkeys j hj']
    exact ⟨hok.keys j hj', hspace.tags _ ha j (.inr hj')⟩

/-- The low bits of a header. -/
private def Box.word : Box → Word
  | .tuple => kindTuple
  | .cons => kindCons
  | .binary => kindBinary
  | .map => kindMap

private theorem mask_of_boxKind {h : Word} {b : Box} (hb : boxKind h = some b) :
    h &&& tagMask = b.word := by
  unfold boxKind at hb
  split_ifs at hb <;> cases hb <;> assumption

private theorem headerWord_headerArity {h kind : Word} (hkind : h &&& tagMask = kind) :
    Heap.headerWord (headerArity h) kind = h := by
  subst hkind
  rw [Heap.headerWord, headerArity, BitVec.ofNat_toNat, BitVec.setWidth_eq]
  apply BitVec.eq_of_getLsbD_eq
  intro i hi
  rw [BitVec.getLsbD_or, BitVec.getLsbD_shiftLeft, BitVec.getLsbD_ushiftRight, BitVec.getLsbD_and]
  by_cases hlow : i < 3
  · have hmask : tagMask.getLsbD i = true := by
      obtain rfl | rfl | rfl : i = 0 ∨ i = 1 ∨ i = 2 := by omega
      all_goals rfl
    simp [hlow, hmask]
  · rw [show 3 + (i - 3) = i by omega, decide_eq_true hi, decide_eq_false hlow, Bool.not_false,
      Bool.and_true, Bool.true_and]
    cases h.getLsbD i <;> rfl

private theorem copyWords_succ {src dst k : ℕ} (hdisj : ∀ i ≤ k, src + i ≠ dst) (mem : Mem) :
    copyWords (Function.update mem dst (mem src)) (src + 1) (dst + 1) k =
      copyWords mem src dst (k + 1) := by
  funext c
  rw [copyWords, copyWords]
  by_cases hin : dst + 1 ≤ c ∧ c < dst + 1 + k
  · have hne := hdisj (c - dst) (by omega)
    rw [if_pos hin, if_pos (by omega), Function.update_of_ne (by omega)]
    congr 1
    omega
  · rw [if_neg hin]
    rcases eq_or_ne c dst with rfl | hne
    · rw [Function.update_self, if_pos (by omega), Nat.sub_self, Nat.add_zero]
    · rw [Function.update_of_ne hne, if_neg (by omega)]

private theorem fields_pure {src dst k : ℕ} (hdisj : ∀ i < k, ∀ j < k, src + i ≠ dst + j)
    (st : Store) :
    Copy.fields pure src dst k st = .ok () { st with mem := copyWords st.mem src dst k } := by
  induction k generalizing src dst st with
  | zero =>
    have hnone : copyWords st.mem src dst 0 = st.mem := by
      funext c
      rw [copyWords, if_neg (by omega)]
    rw [hnone]
    rfl
  | succ k ih =>
    rw [Copy.fields_succ]
    change Copy.fields pure (src + 1) (dst + 1) k
      { st with mem := Function.update st.mem dst (st.mem src) } = _
    have hfirst : ∀ i ≤ k, src + i ≠ dst := fun i hi => hdisj i (by omega) 0 (by omega)
    rw [ih fun i hi j hj => by have := hdisj (i + 1) (by omega) (j + 1) (by omega); omega,
      ← copyWords_succ hfirst]

/-- Copy a tuple or a map: the header, the keys if any, and the parts. -/
private def object (copy : Term → EvacM Term) (src words : ℕ) (header : Word) : EvacM Term := do
  let p ← Evac.alloc words
  Evac.store p header
  Copy.fields pure (src + 1) (p + 1) (refStart header - 1)
  Copy.fields copy (src + refStart header) (p + refStart header) (refCount header)
  return Term.ofAddr p

private theorem get_store (st : Store) : (get : EvacM Store) st = .ok st st := rfl

private theorem copyTerm_object (hbox : t.isBoxed = true)
    (hb : boxKind (st.mem t.addr) = some .tuple ∨ boxKind (st.mem t.addr) = some .map) :
    copyTerm (n + 1) t st =
      object (copyTerm n) t.addr (sizeAt st.mem t.addr) (st.mem t.addr) st := by
  rcases hb with hb | hb
  · have hheader := headerWord_headerArity (mask_of_boxKind hb)
    have hk := Term.kind_of_boxKind hbox hb
    have hrun : copyTerm (n + 1) t st = (do
        let p ← Evac.alloc (1 + headerArity (st.mem t.addr))
        Evac.store p (Heap.headerWord (headerArity (st.mem t.addr)) kindTuple)
        Copy.fields (copyTerm n) (t.addr + 1) (p + 1) (headerArity (st.mem t.addr))
        return Term.ofAddr p : EvacM Term) st := by
      simp only [copyTerm, bind, EStateM.bind, get_store, hk, Box.kind]
      rfl
    have hsize : sizeAt st.mem t.addr = 1 + headerArity (st.mem t.addr) := by
      simp only [sizeAt, objWords, hb, Option.map_some, Option.getD_some]
    rw [hrun, object, hsize]
    simp only [refStart, refCount, hb]
    rw [show kindTuple = Box.word .tuple from rfl, hheader]
    rfl
  · have hheader := headerWord_headerArity (mask_of_boxKind hb)
    have hk := Term.kind_of_boxKind hbox hb
    have hrun : copyTerm (n + 1) t st = (do
        let p ← Evac.alloc (1 + 2 * headerArity (st.mem t.addr))
        Evac.store p (Heap.headerWord (headerArity (st.mem t.addr)) kindMap)
        Copy.fields pure (t.addr + 1) (p + 1) (headerArity (st.mem t.addr))
        Copy.fields (copyTerm n) (t.addr + 1 + headerArity (st.mem t.addr))
          (p + 1 + headerArity (st.mem t.addr)) (headerArity (st.mem t.addr))
        return Term.ofAddr p : EvacM Term) st := by
      simp only [copyTerm, bind, EStateM.bind, get_store, hk, Box.kind]
      rfl
    have hsize : sizeAt st.mem t.addr = 1 + 2 * headerArity (st.mem t.addr) := by
      simp only [sizeAt, objWords, hb, Option.map_some, Option.getD_some]
    rw [hrun, object, hsize]
    simp only [refStart, refCount, hb, Nat.add_sub_cancel_left, ← Nat.add_assoc]
    rw [show kindMap = Box.word .map from rfl, hheader]

private theorem treeWords_boxed (hbox : t.isBoxed = true) :
    treeWords mem (n + 1) t = sizeAt mem t.addr +
      ∑ i ∈ Finset.range (refCount (mem t.addr)),
        treeWords mem n ⟨mem (t.addr + refStart (mem t.addr) + i)⟩ := by
  rw [treeWords, if_pos hbox]
  simp only [Term.child, Nat.add_assoc]

private theorem one_le_refStart (h : Word) : 1 ≤ refStart h := by
  unfold refStart
  split <;> omega

private theorem object_needs {f : Term → EvacM Term} (hf : Copier space n f)
    (h : st.Apart (next st.heap) space) (ht : t.Valid space) (hbox : t.isBoxed = true)
    (hdepth : DepthLt st.mem (n + 1) t) (hb : boxKind (st.mem t.addr) ≠ some .binary) :
    st.Needs (next st.heap) (treeWords st.mem (n + 1) t)
      (fun t' st' => Copied st (treeWords st.mem (n + 1) t) t t' st')
      (object f t.addr (sizeAt st.mem t.addr) (st.mem t.addr) st) := by
  have ha := ht.2 hbox
  have hok := h.objects.ok _ ha
  have hrefs := refs_le_sizeAt hok.kind
  have hone := one_le_refStart (st.mem t.addr)
  have hclear := h.clear _ ha
  have hbound := h.bound
  rw [treeWords_boxed hbox]
  refine (Store.needs_alloc _ h.top_le).bind (fun _ _ hP => hP.2.2) ?_
  rintro p st₁ ⟨rfl, hmem, hadv⟩
  have hnext := hadv.next
  have hfits := hadv.fits
  generalize hheader : st.mem t.addr = header at *
  generalize hsize : sizeAt st.mem t.addr = size at *
  generalize hp : next st.heap = p at *
  have hend : p + size ≤ st.heap.base + st.heap.cap := by
    rw [← hp, next]
    omega
  have hdisj : ∀ i < refStart header - 1, ∀ j < refStart header - 1,
      t.addr + 1 + i ≠ p + 1 + j := by
    intro i hi j hj
    omega
  -- The header and the keys are in place.
  have hrun : (do
      Evac.store p header
      Copy.fields pure (t.addr + 1) (p + 1) (refStart header - 1)
      Copy.fields f (t.addr + refStart header) (p + refStart header) (refCount header)
      return Term.ofAddr p : EvacM Term) st₁ = (do
      Copy.fields f (t.addr + refStart header) (p + refStart header) (refCount header)
      return Term.ofAddr p : EvacM Term)
        { st₁ with
          mem := copyWords (Function.update st.mem p header) (t.addr + 1) (p + 1)
            (refStart header - 1) } := by
    change EStateM.bind (Copy.fields pure (t.addr + 1) (p + 1) (refStart header - 1)) _
      { st₁ with mem := Function.update st₁.mem p header } = _
    rw [EStateM.bind, fields_pure hdisj, hmem]
  rw [hrun]
  set mem₂ := copyWords (Function.update st.mem p header) (t.addr + 1) (p + 1)
    (refStart header - 1) with hmem₂
  have hstore : st₁.Advanced p 0 { st₁ with mem := mem₂ } := by
    refine ⟨rfl, (h.advance hadv).2.top_le, fun c hc => ?_⟩
    dsimp only
    rw [hmem₂, copyWords, if_neg (by omega), Function.update_of_ne (by omega), hmem]
  obtain ⟨hag, hapart⟩ := h.advance (hadv.trans hstore)
  have hcells : ∀ i < refCount header,
      mem₂ (t.addr + refStart header + i) = st.mem (t.addr + refStart header + i) := by
    intro i hi
    rw [Nat.add_assoc]
    exact hag _ ha _ (by omega)
  have hparts : ∀ i < refCount header,
      Term.Valid space ⟨st.mem (t.addr + refStart header + i)⟩ ∧
        DepthLt st.mem n ⟨st.mem (t.addr + refStart header + i)⟩ := by
    intro i hi
    have hi' : i < refCount (st.mem t.addr) := by rwa [hheader]
    have hvalid := h.objects.valid_child ht hbox hi'
    have hlt := hdepth hbox i hi'
    rw [Term.child, hheader, ← Nat.add_assoc] at hvalid hlt
    exact ⟨hvalid, hlt⟩
  have hwords : ∑ i ∈ Finset.range (refCount header),
      treeWords mem₂ n ⟨mem₂ (t.addr + refStart header + i)⟩ =
      ∑ i ∈ Finset.range (refCount header),
        treeWords st.mem n ⟨st.mem (t.addr + refStart header + i)⟩ := by
    refine Finset.sum_congr rfl fun i hi => ?_
    have hi := Finset.mem_range.1 hi
    rw [hcells i hi]
    exact hag.treeWords h.objects (hparts i hi).1
  have hcell : ∀ i < refCount header, ∃ a ∈ space, ∃ j < sizeAt mem₂ a,
      t.addr + refStart header + i = a + j := by
    intro i hi
    have hkept : mem₂ t.addr = st.mem t.addr := hag.header h.objects ha
    refine ⟨t.addr, ha, refStart header + i, ?_, Nat.add_assoc _ _ _⟩
    rw [sizeAt, hkept]
    change _ < sizeAt st.mem t.addr
    omega
  have hterm : ∀ i < refCount header,
      Term.Valid space ⟨mem₂ (t.addr + refStart header + i)⟩ ∧
        DepthLt mem₂ n ⟨mem₂ (t.addr + refStart header + i)⟩ := by
    intro i hi
    rw [hcells i hi]
    exact ⟨(hparts i hi).1, (hag.depthLt h.objects (hparts i hi).1).2 (hparts i hi).2⟩
  have hroom : p + refStart header + refCount header ≤ next st₁.heap := by omega
  have hfields := hf.fields hapart hcell hterm (Nat.le_add_right _ _) hroom
  dsimp only at hfields
  rw [hwords] at hfields
  refine (hfields.map fun _ st₃ hdone => ?_).after hstore
  -- Between the header and the parts nothing has changed.
  have hkeep : ∀ c, p ≤ c → c < p + refStart header → st₃.mem c = mem₂ c :=
    fun c hlo hhi => hdone.keep c (by change _ < next st₁.heap; omega) (by omega)
  have hhead : st₃.mem p = header := by
    rw [hkeep p (Nat.le_refl p) (by omega), hmem₂, copyWords, if_neg (by omega),
      Function.update_self]
  have hsize₃ : sizeAt st₃.mem p = size := by
    rw [sizeAt, hhead, ← hheader]
    exact hsize
  obtain ⟨new, hreg, hval⟩ := hdone.made
  have hnew : next ({ st₁ with mem := mem₂ } : Store).heap = p + size := hnext
  rw [hnew] at hreg
  have hall := (hadv.trans hstore).trans hdone.advanced
  have hroom := hall.fits
  subst hp
  refine copied_object h.objects ht hbox hall (hreg.mono (by omega) (by omega)) ?_ (Nat.le_refl _)
    (by rw [hsize₃]; omega)
    (fun a ha => .inl (by rw [hsize₃]; exact (hreg.within a ha).1)) (by rw [hhead, hheader])
    (by rw [hhead, hheader]) (by rw [hhead, hheader]) (fun j hj => ?_)
    (fun hbin => absurd (hheader ▸ hbin) hb) fun i hi => ?_
  · rw [next]
    omega
  · rw [hheader] at hj
    have hlo := hj.2.1
    have hhi := hj.2.2
    rw [hkeep _ (Nat.le_add_right _ _) (by omega), hmem₂, copyWords, if_pos (by omega),
      Function.update_of_ne (by omega)]
    congr 1
    omega
  · rw [hheader] at hi ⊢
    rw [← Nat.add_assoc, Term.child, hheader, ← Nat.add_assoc]
    refine ⟨hval i hi, fun m hlt => ?_⟩
    have hsame := hdone.value i hi m
    dsimp only at hsame
    rw [hcells i hi] at hsame
    rw [hsame ((hag.depthLt h.objects (hparts i hi).1).2 hlt)]
    exact hag.value h.objects (hparts i hi).1

private theorem writeWords_three (mem : Mem) (p : ℕ) (a b c : Word) (q : ℕ)
    (h : q < p ∨ p + 3 ≤ q) : writeWords mem p [a, b, c] q = mem q := by
  rw [writeWords, writeWords, writeWords, writeWords, Function.update_of_ne (by omega),
    Function.update_of_ne (by omega), Function.update_of_ne (by omega)]

private theorem cons_needs (lo : ℕ) (hd tl : Term) (hlo : lo ≤ next st.heap)
    (htop : st.heap.top ≤ st.heap.cap) :
    st.Needs lo 3 (fun t' st' => t' = Term.ofAddr (next st.heap) ∧
      st'.mem = writeWords st.mem (next st.heap) [kindCons, hd.word, tl.word] ∧
      st.Advanced lo 3 st') (Copy.ofHeap (Heap.cons hd tl) st) := by
  by_cases hfull : st.heap.top + 3 > st.heap.cap
  · refine .inr ⟨hfull, st, ?_, ⟨rfl, rfl, Nat.le_refl _, htop, fun c _ => rfl⟩⟩
    simp only [Copy.ofHeap, Heap.cons, Heap.alloc, bind, EStateM.bind, if_pos hfull]
  · refine .inl ⟨Nat.le_of_not_lt hfull, _, ⟨writeWords st.mem (next st.heap)
      [kindCons, hd.word, tl.word], { st.heap with top := st.heap.top + 3 }⟩, ?_, rfl, rfl,
      rfl, Nat.le_of_not_lt hfull, fun c hc => writeWords_three _ _ _ _ _ c (by omega)⟩
    simp only [Copy.ofHeap, Heap.cons, Heap.alloc, bind, EStateM.bind, if_neg hfull, Heap.write,
      pure, EStateM.pure]
    rfl

/-- The cells of a list and what ends it, with paths shorter than `n`. -/
private inductive Spine (mem : Mem) (space : Set ℕ) : ℕ → Term → List Term → Term → Prop
  | rest {n : ℕ} {t : Term} : t.Valid space → DepthLt mem n t → Spine mem space n t [] t
  | cell {n : ℕ} {t rest : Term} {cells : List Term} : t.Valid space → t.isBoxed = true →
    boxKind (mem t.addr) = some .cons → DepthLt mem (n + 1) t →
    Spine mem space n (t.tail mem) cells rest → Spine mem space (n + 1) t (t :: cells) rest

private theorem child_cons (hb : boxKind (mem t.addr) = some .cons) :
    t.child mem 0 = t.head mem ∧ t.child mem 1 = t.tail mem := by
  simp only [Term.child, refStart, hb, Term.head, Term.tail, Nat.add_zero, and_self]

private theorem spine_ok (hspace : TermSpace mem space) (ht : t.Valid space)
    (hdepth : DepthLt mem n t) :
    ∃ cells rest, Copy.spine mem n t = .ok (cells, rest) ∧ Spine mem space n t cells rest ∧
      (t.kind mem = some .cons → cells ≠ []) := by
  induction n generalizing t with
  | zero => exact hdepth.elim
  | succ n ih =>
    obtain ⟨k, hk⟩ := Option.isSome_iff_exists.1 (hspace.kind_isSome ht)
    by_cases hcons : k = .cons
    · subst hcons
      obtain ⟨ha, hb⟩ := @TermSpace.box_of_kind mem space t ht .cons hk
      have hbox : t.isBoxed = true := by
        by_contra hnot
        obtain ⟨k', hk', -, hne, -⟩ := Term.kind_immediate mem (by simpa using hnot) ht.1
        rw [hk] at hk'
        exact hne (Option.some.inj hk').symm
      have htwo : refCount (mem t.addr) = 2 := by simp only [refCount, hb]
      have hchild := hdepth hbox 1 (by omega)
      rw [(child_cons hb).2] at hchild
      obtain ⟨cells, rest, hrun, hspine, -⟩ := ih (hspace.valid_tail ht hk) hchild
      refine ⟨t :: cells, rest, ?_, .cell ht hbox hb hdepth hspine, fun _ => List.cons_ne_nil _ _⟩
      rw [Copy.spine, hk]
      simp only [hrun, Except.map]
    · refine ⟨[], t, ?_, .rest ht hdepth, fun heq => ?_⟩
      · rw [Copy.spine, hk]
        cases k <;> first | rfl | exact absurd rfl hcons
      · rw [hk] at heq
        exact absurd (Option.some.inj heq) hcons

/-- A cell built from the copies of its head and its tail. -/
private theorem cell_copied {st₁ st₂ st₃ : Store} {w₁ w₂ : ℕ} {hd tl : Term}
    (h : st.Apart (next st.heap) space) (ht : t.Valid space) (hbox : t.isBoxed = true)
    (hb : boxKind (st.mem t.addr) = some .cons) (htail : Copied st w₁ (t.tail st.mem) tl st₁)
    (hhead : Copied st₁ w₂ (t.head st.mem) hd st₂)
    (hmem : st₃.mem = writeWords st₂.mem (next st₂.heap) [kindCons, hd.word, tl.word])
    (hadv : st₂.Advanced (next st.heap) 3 st₃) :
    Copied st (w₁ + (w₂ + 3)) t (Term.ofAddr (next st₂.heap)) st₃ := by
  have hnext₁ := htail.advanced.next
  have hnext₂ := hhead.advanced.next
  have hlow : st₁.Advanced (next st.heap) w₂ st₂ := hhead.advanced.mono (by omega)
  have hall := (htail.advanced.trans hlow).trans hadv
  have hroom := hall.fits
  have hbound := h.bound
  obtain ⟨hag, -⟩ := h.advance htail.advanced
  obtain ⟨new₁, hreg₁, hval₁⟩ := htail.made
  obtain ⟨new₂, hreg₂, hval₂⟩ := hhead.made
  have hbelow : ∀ c < next st₂.heap, st₃.mem c = st₂.mem c := by
    intro c hc
    rw [hmem, writeWords_three _ _ _ _ _ c (.inl hc)]
  have hcell : st₃.mem (next st₂.heap) = kindCons ∧
      st₃.mem (next st₂.heap + 1) = hd.word ∧ st₃.mem (next st₂.heap + 2) = tl.word := by
    rw [hmem, writeWords_apply, writeWords_apply, writeWords_apply, if_pos (by omega),
      if_pos (by omega), if_pos (by omega), Nat.sub_self, Nat.add_sub_cancel_left,
      Nat.add_sub_cancel_left]
    exact ⟨rfl, rfl, rfl⟩
  obtain ⟨hag₁, hreg₁'⟩ := hreg₁.congr (m := st₃.mem) fun c hlo hhi => by
    rw [hbelow c (by omega), hhead.advanced.frame c (by omega)]
  obtain ⟨hag₂, hreg₂'⟩ := hreg₂.congr (m := st₃.mem) fun c hlo hhi =>
    hbelow c (by omega)
  rw [hnext₁] at hreg₂'
  have hkind : boxKind kindCons = some .cons := by decide
  have hsize : sizeAt st₃.mem (next st₂.heap) = 3 := by
    simp only [sizeAt, hcell.1, objWords, hkind, Option.map_some, Option.getD_some]
  have hreg := hreg₁'.union hreg₂' (by omega) (by omega)
  refine copied_object h.objects ht hbox (by rw [Nat.add_assoc] at hall; exact hall)
    (hreg.mono (Nat.le_refl _) (by omega)) (by rw [next]; omega) (by omega) (by omega)
    (fun a ha => .inr ?_) (by rw [hcell.1, hkind, hb]) ?_ ?_ (fun j hj => ?_) (fun hbin => ?_)
    fun i hi => ?_
  · have hin := (hreg.within a ha).2
    omega
  · simp only [hcell.1, refStart, hkind, hb]
  · simp only [hcell.1, refCount, hkind, hb]
  · rw [IsKey, hb] at hj
    cases hj.1
  · rw [hb] at hbin
    cases hbin
  · have hstart : refStart (st.mem t.addr) = 1 := by simp only [refStart, hb]
    have htwo : refCount (st.mem t.addr) = 2 := by simp only [refCount, hb]
    have hvalid := h.objects.valid_child ht hbox hi
    obtain ⟨hchild₀, hchild₁⟩ := child_cons hb
    rw [hstart]
    obtain rfl | rfl : i = 0 ∨ i = 1 := by omega
    · rw [hchild₀] at hvalid ⊢
      rw [show next st₂.heap + (1 + 0) = next st₂.heap + 1 from rfl, hcell.2.1]
      refine ⟨hval₂.mono Set.subset_union_right, fun m hlt => ?_⟩
      rw [hag₂.value hreg₂.objects hval₂, hhead.value m ((hag.depthLt h.objects hvalid).2 hlt)]
      exact hag.value h.objects hvalid
    · rw [hchild₁] at hvalid ⊢
      rw [show next st₂.heap + (1 + 1) = next st₂.heap + 2 from rfl, hcell.2.2]
      refine ⟨hval₁.mono Set.subset_union_left, fun m hlt => ?_⟩
      rw [hag₁.value hreg₁.objects hval₁, htail.value m hlt]

private theorem cells_needs {f : Term → EvacM Term} (hf : Copier space n f) {k : ℕ}
    {cells : List Term} {rest : Term} (h : st.Apart (next st.heap) space)
    (hspine : Spine st.mem space k t cells rest) (hk : k ≤ n + 1) (hne : k ≤ n ∨ cells ≠ []) :
    st.Needs (next st.heap) (treeWords st.mem k t)
      (fun t' st' => Copied st (treeWords st.mem k t) t t' st') (Copy.cells f rest cells st) := by
  induction hspine with
  | @rest k t ht hdepth =>
    have hle : k ≤ n := hne.resolve_right fun hnil => hnil rfl
    have hcopy := hf st t h ht (hdepth.mono hle)
    rw [treeWords_eq_of_le hdepth hle] at hcopy
    exact hcopy
  | @cell k t rest cells ht hbox hb hdepth htail ih =>
    have htwo : refCount (st.mem t.addr) = 2 := by simp only [refCount, hb]
    have hsize : sizeAt st.mem t.addr = 3 := by
      simp only [sizeAt, objWords, hb, Option.map_some, Option.getD_some]
    obtain ⟨hchild₀, hchild₁⟩ := child_cons hb
    have hwords : treeWords st.mem (k + 1) t =
        treeWords st.mem k (t.tail st.mem) + (treeWords st.mem k (t.head st.mem) + 3) := by
      rw [treeWords, if_pos hbox, htwo, Finset.sum_range_succ, Finset.sum_range_one, hsize,
        hchild₀, hchild₁]
      omega
    have hvalid := h.objects.valid_child ht hbox (i := 0) (by omega)
    have hlt := hdepth hbox 0 (by omega)
    rw [hchild₀] at hvalid hlt
    rw [hwords]
    refine (ih (by omega) (.inl (by omega))).bind (fun _ _ hP => hP.advanced)
      fun tl st₁ htl => ?_
    obtain ⟨hag, hapart⟩ := h.advance htl.advanced
    have hcell : t.head st₁.mem = t.head st.mem := by
      rw [Term.head, Term.head, hag _ (ht.2 hbox) 1 (by omega)]
    change st₁.Needs _ _ _ (EStateM.bind (f (t.head st₁.mem)) _ st₁)
    rw [hcell]
    have hcopy := hf st₁ (t.head st.mem) hapart.raise hvalid
      ((hag.depthLt h.objects hvalid).2 (hlt.mono (by omega)))
    rw [hag.treeWords h.objects hvalid, treeWords_eq_of_le hlt (by omega)] at hcopy
    refine (hcopy.lower hapart.lo_le).bind (fun _ _ hP => hP.advanced.mono hapart.lo_le)
      fun hd st₂ hhd => ?_
    have hapart₂ := (hapart.advance (hhd.advanced.mono hapart.lo_le)).2
    refine (cons_needs (next st.heap) hd tl hapart₂.lo_le hapart₂.top_le).imp ?_
    rintro _ st₃ ⟨rfl, hmem, hadv⟩
    exact cell_copied h ht hbox hb htl hhd hmem hadv

private theorem binary_needs (h : st.Apart (next st.heap) space) (ht : t.Valid space)
    (hbox : t.isBoxed = true) (hb : boxKind (st.mem t.addr) = some .binary) :
    st.Needs (next st.heap) (sizeAt st.mem t.addr)
      (fun t' st' => Copied st (sizeAt st.mem t.addr) t t' st')
      (Copy.ofHeap (Heap.binary (t.binBytes st.mem)) st) := by
  have hlen : (t.binBytes st.mem).length = headerArity (st.mem t.addr) := by
    rw [Term.binBytes, readBytes, List.length_map, List.length_range]
    rfl
  have hsize : sizeAt st.mem t.addr = 1 + (headerArity (st.mem t.addr) + 7) / 8 := by
    simp only [sizeAt, objWords, hb, Option.map_some, Option.getD_some]
  have hheader := headerWord_headerArity (mask_of_boxKind hb)
  have hbound := h.bound
  rw [hsize]
  by_cases hfull : st.heap.top + (1 + (headerArity (st.mem t.addr) + 7) / 8) > st.heap.cap
  · refine .inr ⟨hfull, st, ?_, ⟨rfl, rfl, Nat.le_refl _, h.top_le, fun c _ => rfl⟩⟩
    simp only [Copy.ofHeap, Heap.binary, Heap.alloc, bind, EStateM.bind, hlen, if_pos hfull]
  · set p := next st.heap with hp
    set mem₁ := writeBytes (writeWords st.mem p [Heap.headerWord (headerArity (st.mem t.addr))
      kindBinary]) (p + 1) (t.binBytes st.mem) with hmem₁
    have hfits := Nat.le_of_not_lt hfull
    have hend : p + (1 + (headerArity (st.mem t.addr) + 7) / 8) ≤ 2 ^ 61 := by
      rw [hp, next]
      omega
    have hhead : mem₁ p = st.mem t.addr := by
      rw [hmem₁, writeBytes, if_neg (by omega), writeWords, writeWords, Function.update_self]
      exact hheader
    have hadv : st.Advanced p (1 + (headerArity (st.mem t.addr) + 7) / 8)
        ⟨mem₁, { st.heap with
          top := st.heap.top + (1 + (headerArity (st.mem t.addr) + 7) / 8) }⟩ := by
      refine ⟨rfl, hfits, fun c hc => ?_⟩
      dsimp only
      rw [hmem₁, writeBytes, hlen, if_neg (by omega), writeWords, writeWords,
        Function.update_of_ne (by omega)]
    refine .inl ⟨hfits, Term.ofAddr p, _, ?_, copied_object h.objects ht hbox hadv
      region_empty hend (Nat.le_refl _) ?_ (fun a ha => ha.elim) (congrArg boxKind hhead)
      (congrArg refStart hhead) (congrArg refCount hhead) (fun j hj => ?_) (fun _ => ?_)
      fun i hi => ?_⟩
    · simp only [Copy.ofHeap, Heap.binary, Heap.alloc, bind, EStateM.bind, hlen, if_neg hfull,
        Heap.write, Heap.writeData, pure, EStateM.pure]
      rfl
    · dsimp only
      rw [sizeAt, hhead]
      exact Nat.le_of_eq (by rw [← hsize]; rfl)
    · rw [IsKey, hb] at hj
      cases hj.1
    · have haddr : (Term.ofAddr p).addr = p := Term.addr_ofAddr (by omega)
      have hlen' : (Term.ofAddr p).headerLen mem₁ = (t.binBytes st.mem).length := by
        rw [Term.headerLen, Term.header, haddr, hhead, hlen]
        rfl
      dsimp only
      rw [Term.binBytes, haddr, hlen', hmem₁, readBytes_writeBytes]
    · simp only [refCount, hb] at hi
      omega

/-- `copy_term` copies: with room for the words of all paths it returns a copy, and without
it stops. -/
theorem copyTerm_copier (space : Set ℕ) (n : ℕ) : Copier space n (copyTerm n) := by
  induction n with
  | zero => exact fun _ _ _ _ hdepth => hdepth.elim
  | succ n ih =>
    intro st t h ht hdepth
    cases hbox : t.isBoxed with
    | false =>
      obtain ⟨k, hk, htuple, hcons, hbinary, hmap⟩ := Term.kind_immediate st.mem hbox ht.1
      have hrun : copyTerm (n + 1) t st = .ok t st := by
        simp only [copyTerm, bind, EStateM.bind, get_store, hk]
        cases k <;> rfl
      rw [hrun, treeWords, if_neg (by simp [hbox])]
      refine .pure h.top_le ⟨⟨rfl, h.top_le, fun c _ => rfl⟩, fun m _ => rfl, ∅, region_empty,
        ht.1, fun hboxed => ?_⟩
      rw [hbox] at hboxed
      cases hboxed
    | true =>
      obtain ⟨b, hb⟩ := h.objects.exists_box ht hbox
      have hk := Term.kind_of_boxKind hbox hb
      cases b with
      | tuple =>
        rw [copyTerm_object hbox (.inl hb)]
        exact object_needs ih h ht hbox hdepth (by rw [hb]; simp)
      | map =>
        rw [copyTerm_object hbox (.inr hb)]
        exact object_needs ih h ht hbox hdepth (by rw [hb]; simp)
      | binary =>
        have hrun : copyTerm (n + 1) t st = Copy.ofHeap (Heap.binary (t.binBytes st.mem)) st := by
          simp only [copyTerm, bind, EStateM.bind, get_store, hk, Box.kind]
        have hwords : treeWords st.mem (n + 1) t = sizeAt st.mem t.addr := by
          have hnone : refCount (st.mem t.addr) = 0 := by simp only [refCount, hb]
          rw [treeWords, if_pos hbox, hnone, Finset.sum_range_zero, Nat.add_zero]
        rw [hrun, hwords]
        exact binary_needs h ht hbox hb
      | cons =>
        obtain ⟨cells, rest, hspine, hcells, hne⟩ := spine_ok h.objects ht hdepth
        have hrun : copyTerm (n + 1) t st = Copy.cells (copyTerm n) rest cells st := by
          simp only [copyTerm, bind, EStateM.bind, get_store, hk, Box.kind, hspine]
        rw [hrun]
        exact cells_needs ih h hcells (Nat.le_refl _) (.inr (hne hk))

end Objects

end Yggdrasil
