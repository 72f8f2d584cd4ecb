import ConsoleLisp.Proofs.Value.Load
import ConsoleLisp.Scope

/-!
# What only adds to a heap

`Adds` says that a heap has all the cells of another one and no native more, and `Adding` that an
action does no more to a heap than that, whether it returns or the heap is full. The one action on
scopes that changes a cell is a binding: it adds two pairs and then replaces the frame of its scope.

Results:
* `Adding.bind`: a sequence only adds when its parts do.
* `list_adding`: building a list.
* `read_adding`: reading a text.
* **`bind_spec`**: a binding is complete before the scope has it; a heap that is full leaves the
  scope as it was.
-/

namespace ConsoleLisp

namespace Heap

variable {κ α γ : Type}

/-- A heap that has all the cells of another one, and no native more. -/
structure Adds (heap heap' : Heap κ) : Prop extends Extends heap heap' where
  natives : ∀ e native, heap'.cell? e = some (.native native) →
    heap.cell? e = some (.native native)

theorem Adds.refl (heap : Heap κ) : Adds heap heap := ⟨.refl heap, fun _ _ h => h⟩

theorem Adds.trans {heap heap' heap'' : Heap κ} (h : Adds heap heap') (h' : Adds heap' heap'') :
    Adds heap heap'' :=
  ⟨h.toExtends.trans h'.toExtends, fun e native hc => h.natives e native (h'.natives e native hc)⟩

theorem Extends.isLive {heap heap' : Heap κ} (h : Extends heap heap') {e : Handle}
    (he : heap.isLive e = true) : heap'.isLive e = true := by
  obtain ⟨c, hc⟩ := isLive_iff.mp he
  exact isLive_of_cell? (h.cell?_mono e c hc)

/-- What is not live in a heap was not live before cells were added. -/
theorem Extends.cell?_eq_none {heap heap' : Heap κ} (h : Extends heap heap') {e : Handle}
    (he : heap'.cell? e = none) : heap.cell? e = none :=
  Option.eq_none_iff_forall_ne_some.mpr fun c hc => nomatch he.symm.trans (h.cell?_mono e c hc)

/-- A cell under a handle that was not live. -/
theorem Updates.extends {heap heap' : Heap κ} {e : Handle} {cell : Cell κ}
    (hu : heap.Updates e cell heap') (hnew : heap.cell? e = none) : Extends heap heap' := by
  refine ⟨hu.id_eq, hu.maxSlots_eq, fun f c hc => ?_⟩
  rw [hu.cell?_eq, if_neg, hc]
  rintro rfl
  cases hnew.symm.trans hc

/-- The fault of a heap that is full. -/
def exhaustion (heap : Heap κ) : Fault := .heap (.exhausted heap.id heap.maxSlots)

theorem Extends.exhaustion_eq {heap heap' : Heap κ} (h : Extends heap heap') :
    heap'.exhaustion = heap.exhaustion := by
  rw [exhaustion, exhaustion, h.id_eq, h.maxSlots_eq]

/-- The action only adds to the heap, and what it returns is as `P` says; it is refused by a full
heap and by nothing else. -/
def Adding (action : HeapM κ α) (heap : Heap κ) (P : Heap κ → α → Prop) : Prop :=
  ∃ heap', heap'.WellFormed ∧ Adds heap heap' ∧
    ((∃ a, action heap = (.ok a, heap') ∧ P heap' a) ∨
      action heap = (.error heap.exhaustion, heap'))

namespace Adding

variable {heap : Heap κ} {P : Heap κ → α → Prop} {Q : Heap κ → γ → Prop}

theorem pure {a : α} (w : heap.WellFormed) (h : P heap a) : Adding (pure a : HeapM κ α) heap P :=
  ⟨heap, w, .refl heap, .inl ⟨a, rfl, h⟩⟩

/-- **A sequence only adds when its parts do.** -/
theorem bind {x : HeapM κ α} {f : α → HeapM κ γ} (hx : Adding x heap P)
    (hf : ∀ a heap', heap'.WellFormed → Adds heap heap' → P heap' a → Adding (f a) heap' Q) :
    Adding (x >>= f) heap Q := by
  obtain ⟨heap', w', hadds, ⟨a, hrun, ha⟩ | hrun⟩ := hx
  · obtain ⟨heap'', w'', hadds', hrest⟩ := hf a heap' w' hadds ha
    refine ⟨heap'', w'', hadds.trans hadds', ?_⟩
    rw [Act.run_bind_ok hrun, ← hadds.exhaustion_eq]
    exact hrest
  · exact ⟨heap', w', hadds, .inr (Act.run_bind_error hrun)⟩

theorem imp {P' : Heap κ → α → Prop} {x : HeapM κ α} (hx : Adding x heap P)
    (h : ∀ a heap', P heap' a → P' heap' a) : Adding x heap P' := by
  obtain ⟨heap', w', hadds, ⟨a, hrun, ha⟩ | hrun⟩ := hx
  · exact ⟨heap', w', hadds, .inl ⟨a, hrun, h a heap' ha⟩⟩
  · exact ⟨heap', w', hadds, .inr hrun⟩

/-- What an action that has returned has added. -/
theorem of_ok {x : HeapM κ α} (hx : Adding x heap P) {a : α} {heap' : Heap κ}
    (h : x heap = (.ok a, heap')) : heap'.WellFormed ∧ Adds heap heap' ∧ P heap' a := by
  obtain ⟨heap'', w', hadds, ⟨b, hrun, hb⟩ | hrun⟩ := hx
  · cases hrun.symm.trans h
    exact ⟨w', hadds, hb⟩
  · cases hrun.symm.trans h

/-- What an action that is refused has added by then. -/
theorem of_error {x : HeapM κ α} (hx : Adding x heap P) {fault : Fault} {heap' : Heap κ}
    (h : x heap = (.error fault, heap')) : heap'.WellFormed ∧ Adds heap heap' := by
  obtain ⟨heap'', w', hadds, ⟨b, hrun, -⟩ | hrun⟩ := hx
  · cases hrun.symm.trans h
  · cases hrun.symm.trans h
    exact ⟨w', hadds⟩

end Adding

section Cells

variable {heap : Heap κ}

/-- The one nil of the heap. -/
theorem nil_adding (w : heap.WellFormed) :
    Adding Heap.nil heap fun heap' e => heap'.cell? e = some .nil :=
  ⟨heap, w, .refl heap, .inl ⟨heap.nilHandle, nil_spec w, w.cell?_nil⟩⟩

/-- A new cell that is no native. -/
theorem allocate_adding (w : heap.WellFormed) {cell : Cell κ} (hp : heap.PartsLive cell)
    (hn : ∀ native, cell ≠ .native native) :
    Adding (allocate cell) heap fun heap' e => heap.cell? e = none ∧ heap'.cell? e = some cell := by
  rcases allocate_spec w hp with ⟨-, -, hrun⟩ | ⟨e, heap', hrun, w', hu, hnew⟩
  · exact ⟨heap, w, .refl heap, .inr hrun⟩
  · have hcell : heap'.cell? e = some cell := by rw [hu.cell?_eq, if_pos rfl]
    refine ⟨heap', w', ⟨hu.extends hnew, fun f native hc => ?_⟩, .inl ⟨e, hrun, hnew, hcell⟩⟩
    rw [hu.cell?_eq] at hc
    split at hc
    · exact absurd (Option.some.inj hc) (hn native)
    · exact hc

theorem pair_adding (w : heap.WellFormed) {head tail : Handle} (hh : heap.isLive head = true)
    (ht : heap.isLive tail = true) :
    Adding (pair head tail) heap fun heap' e =>
      heap.cell? e = none ∧ heap'.cell? e = some (.pair head tail) := by
  unfold Adding
  rw [pair_eq_allocate hh ht]
  refine allocate_adding w (fun head' tail' heq => ?_) nofun
  cases heq
  exact ⟨hh, ht⟩

/-- A list of live items. -/
theorem list_adding (w : heap.WellFormed) {items : List Handle}
    (hitems : ∀ e ∈ items, heap.isLive e = true) :
    Adding (Heap.list items) heap fun heap' e => heap'.isLive e = true := by
  refine (nil_adding w).bind fun nil heap₁ w₁ hadds hnil => ?_
  induction items with
  | nil => exact .pure w₁ (isLive_of_cell? hnil)
  | cons e rest ih =>
    rw [listOnto, List.foldrM_cons]
    refine (ih fun f hf => hitems f (List.mem_cons_of_mem e hf)).bind fun tail heap₂ w₂ hadds₂ ht =>
      ?_
    have he := (hadds.trans hadds₂).isLive (hitems e List.mem_cons_self)
    exact (pair_adding w₂ he ht).imp fun _ _ hc => isLive_of_cell? hc.2

end Cells

/-! ## Reading -/

/-- A datum is loaded into new cells. -/
theorem load_adding (datum : Datum) {heap : Heap κ} (w : heap.WellFormed) :
    Adding (load datum) heap fun heap' e => heap'.isLive e = true := by
  induction datum generalizing heap with
  | nil => exact (nil_adding w).imp fun _ _ hc => isLive_of_cell? hc
  | number | symbol | string =>
    refine (allocate_adding w (partsLive_atom rfl) ?_).imp fun _ _ hc => isLive_of_cell? hc.2
    exact nofun
  | quoted datum ih =>
    unfold load
    refine (ih w).bind fun quoted heap₁ w₁ _ hquoted => ?_
    have hword : Adding (allocate (.symbol (text "quote"))) heap₁ fun heap' e =>
        heap₁.cell? e = none ∧ heap'.cell? e = some (.symbol (text "quote")) :=
      allocate_adding w₁ (partsLive_atom rfl) nofun
    refine hword.bind fun word heap₂ w₂ hadds hword => ?_
    refine list_adding w₂ (List.forall_mem_cons.mpr ⟨isLive_of_cell? hword.2, ?_⟩)
    exact List.forall_mem_singleton.mpr (hadds.isLive hquoted)
  | cons head tail ihhead ihtail =>
    unfold load
    refine (ihhead w).bind fun head heap₁ w₁ _ hhead => ?_
    refine (ihtail w₁).bind fun tail heap₂ w₂ hadds htail => ?_
    exact (pair_adding w₂ (hadds.isLive hhead) htail).imp fun _ _ hc => isLive_of_cell? hc.2

theorem loadAll_adding (data : List Datum) {heap : Heap κ} (w : heap.WellFormed) :
    Adding (data.forM fun datum => discard (load datum) : HeapM κ Unit) heap fun _ _ => True := by
  induction data generalizing heap with
  | nil => exact .pure w trivial
  | cons datum rest ih =>
    have hfirst : Adding (discard (load datum) : HeapM κ Unit) heap fun _ _ => True :=
      (load_adding datum w).bind fun _ _ w₁ _ _ => .pure w₁ trivial
    exact hfirst.bind fun _ _ w₁ _ _ => ih w₁

/-- **Reading a text only adds**, also when the text cannot be read and when the heap is full before
its end. -/
theorem read_adding (source : Text) {heap : Heap κ} (w : heap.WellFormed) :
    Adding (read source) heap fun _ _ => True := by
  unfold read
  cases readDatum source with
  | ok found => exact (load_adding found.1 w).bind fun _ _ w₁ _ _ => .pure w₁ trivial
  | error failure =>
    exact (loadAll_adding failure.completed w).bind fun _ _ w₁ _ _ => .pure w₁ trivial

/-! ## Scopes -/

/-- A root scope has an empty frame and no parent. -/
theorem root_adding {heap : Heap κ} (w : heap.WellFormed) :
    Adding Scope.root heap fun heap' scope => heap.cell? scope.chain = none ∧
      heap'.cell? scope.chain = some (.pair heap.nilHandle heap.nilHandle) := by
  have hnil : heap.isLive heap.nilHandle = true := isLive_of_cell? w.cell?_nil
  unfold Adding
  rw [Scope.root, Act.run_bind_ok (nil_spec w)]
  exact (pair_adding w hnil hnil).bind fun e heap' w' _ hc => .pure w' hc

/-- A child scope has an empty frame in front of its parent. -/
theorem push_adding {heap : Heap κ} (w : heap.WellFormed) {parent : Scope}
    (hparent : heap.isLive parent.chain = true) :
    Adding parent.push heap fun heap' scope => heap.cell? scope.chain = none ∧
      heap'.cell? scope.chain = some (.pair heap.nilHandle parent.chain) := by
  have hnil : heap.isLive heap.nilHandle = true := isLive_of_cell? w.cell?_nil
  unfold Adding
  rw [Scope.push, Act.run_bind_ok (nil_spec w)]
  exact (pair_adding w hnil hparent).bind fun e heap' w' _ hc => .pure w' hc

section Bindings

variable {heap : Heap κ} {scope : Scope} {symbol value frame parent : Handle} {name : Text}

theorem symbolName?_eq_ok_iff {e : Handle} :
    heap.symbolName? e = .ok (some name) ↔ heap.cell? e = some (.symbol name) := by
  rw [← inspect_eq_ok_iff, symbolName?]
  cases heap.inspect e with
  | error fault => exact ⟨nofun, nofun⟩
  | ok cell => cases cell <;> simp [Except.map, Cell.symbolName?]

theorem frameOf_eq (h : heap.cell? scope.chain = some (.pair frame parent)) :
    (view (frameOf · scope) : HeapM κ (Handle × Handle)) heap = (.ok (frame, parent), heap) := by
  rw [view, frameOf, pair?, inspect_eq_ok_iff.mpr h]
  rfl

/-- A binding in a scope: two pairs, and then the new frame. -/
theorem bind_eq (hs : heap.cell? symbol = some (.symbol name))
    (hf : heap.cell? scope.chain = some (.pair frame parent)) :
    scope.bind symbol value heap = (do
      let binding ← pair symbol value
      setHead scope.chain (← pair binding frame) : HeapM κ Unit) heap := by
  refine (Act.run_bind_ok (view_inspect_eq hs)).trans ?_
  refine (Act.run_bind_ok (frameOf_eq hf)).trans ?_
  rfl

/-- Why a binding is refused before anything is allocated. The symbol is judged first, then the
scope, then the value. -/
inductive BindRefusal (heap : Heap κ) (scope : Scope) (symbol value : Handle) : Fault → Prop
  | symbol {fault : Fault} : heap.inspect symbol = .error fault →
      BindRefusal heap scope symbol value fault
  | notSymbol {cell : Cell κ} : heap.inspect symbol = .ok cell → cell.symbolName? = none →
      BindRefusal heap scope symbol value (.notSymbol cell.kind)
  | scope {name : Text} {fault : Fault} : heap.inspect symbol = .ok (.symbol name) →
      heap.inspect scope.chain = .error fault → BindRefusal heap scope symbol value fault
  | notScope {name : Text} {cell : Cell κ} : heap.inspect symbol = .ok (.symbol name) →
      heap.inspect scope.chain = .ok cell → cell.pair? = none →
      BindRefusal heap scope symbol value .notScope
  | value {name : Text} {frame parent : Handle} {fault : Fault} :
      heap.inspect symbol = .ok (.symbol name) →
      heap.inspect scope.chain = .ok (.pair frame parent) → heap.inspect value = .error fault →
      BindRefusal heap scope symbol value fault

/-- **A binding is refused** where its symbol is no symbol, its scope no pair or its value not live,
and then nothing happens. -/
theorem bind_refused (heap : Heap κ) (scope : Scope) (symbol value : Handle) :
    (∃ fault, BindRefusal heap scope symbol value fault ∧
        scope.bind symbol value heap = (.error fault, heap)) ∨
      ∃ name frame parent, heap.cell? symbol = some (.symbol name) ∧
        heap.cell? scope.chain = some (.pair frame parent) ∧ heap.isLive value = true := by
  rcases view_inspect_cases heap symbol with ⟨fault, hfault⟩ | ⟨cell, hs, hsymbol⟩
  · exact .inl ⟨fault, .symbol (congrArg Prod.fst hfault), Act.run_bind_error hfault⟩
  have hin := inspect_eq_ok_iff.mpr hs
  cases cell with
  | nil | number | string | pair | native =>
    exact .inl ⟨_, .notSymbol hin rfl,
      (Act.run_bind_ok hsymbol).trans (Act.run_bind_error (Act.run_throw _ _))⟩
  | symbol name =>
    rcases view_inspect_cases heap scope.chain with ⟨fault, hfault⟩ | ⟨cell, hc, -⟩
    · have hframe : (view (frameOf · scope) : HeapM κ (Handle × Handle)) heap =
          (.error fault, heap) := by
        have hchain : heap.inspect scope.chain = .error fault := congrArg Prod.fst hfault
        rw [view, frameOf, pair?, hchain]
        rfl
      exact .inl ⟨fault, .scope hin (congrArg Prod.fst hfault),
        (Act.run_bind_ok hsymbol).trans (Act.run_bind_error hframe)⟩
    have hchain := inspect_eq_ok_iff.mpr hc
    cases cell with
    | nil | number | symbol | string | native =>
      have hframe : (view (frameOf · scope) : HeapM κ (Handle × Handle)) heap =
          (.error .notScope, heap) := by
        rw [view, frameOf, pair?, hchain]
        rfl
      exact .inl ⟨_, .notScope hin hchain rfl,
        (Act.run_bind_ok hsymbol).trans (Act.run_bind_error hframe)⟩
    | pair frame parent =>
      rcases view_inspect_cases heap value with ⟨fault, hfault⟩ | ⟨cell, hv, -⟩
      · have hpair : (pair symbol value : HeapM κ Handle) heap = (.error fault, heap) :=
          (Act.run_bind_ok hsymbol).trans (Act.run_bind_error hfault)
        exact .inl ⟨fault, .value hin hchain (congrArg Prod.fst hfault),
          (bind_eq hs hc).trans (Act.run_bind_error hpair)⟩
      · exact .inr ⟨name, frame, parent, hs, hc, isLive_of_cell? hv⟩

theorem bind_cases (heap : Heap κ) (scope : Scope) (symbol value : Handle) :
    (∃ fault, scope.bind symbol value heap = (.error fault, heap)) ∨
      ∃ name frame parent, heap.cell? symbol = some (.symbol name) ∧
        heap.cell? scope.chain = some (.pair frame parent) ∧ heap.isLive value = true :=
  (bind_refused heap scope symbol value).imp_left fun ⟨fault, _, hrun⟩ => ⟨fault, hrun⟩

/-- **A binding is complete before its scope has it.** When the heap is full the scope is as it
was. -/
theorem bind_spec (w : heap.WellFormed) (hs : heap.cell? symbol = some (.symbol name))
    (hf : heap.cell? scope.chain = some (.pair frame parent)) (hv : heap.isLive value = true) :
    ∃ heap₁, heap₁.WellFormed ∧ Adds heap heap₁ ∧
      (scope.bind symbol value heap = (.error heap.exhaustion, heap₁) ∨
        ∃ binding front heap', scope.bind symbol value heap = (.ok (), heap') ∧ heap'.WellFormed ∧
          heap.cell? binding = none ∧ heap₁.cell? binding = some (.pair symbol value) ∧
          heap.cell? front = none ∧ heap₁.cell? front = some (.pair binding frame) ∧
          heap₁.Updates scope.chain (.pair front parent) heap') := by
  have hframe := isLive_iff.mpr (w.parts_of_pair hf).1
  rw [bind_eq hs hf]
  obtain ⟨heap₁, w₁, hadds₁, ⟨binding, hrun₁, hnew, hb⟩ | hrun₁⟩ :=
    pair_adding w (isLive_of_cell? hs) hv
  · obtain ⟨heap₂, w₂, hadds₂, ⟨front, hrun₂, hnew₂, hfront⟩ | hrun₂⟩ :=
      pair_adding w₁ (isLive_of_cell? hb) (hadds₁.isLive hframe)
    · have hadds := hadds₁.trans hadds₂
      have hf₂ := hadds.cell?_mono _ _ hf
      have hlive := isLive_of_cell? hfront
      obtain ⟨w', hu⟩ := overwrite_spec w₂ hf₂ (partsLive_replacePart w₂ hf₂ hlive .head)
      refine ⟨heap₂, w₂, hadds, .inr ⟨binding, front, _, ?_, w', hnew,
        hadds₂.cell?_mono _ _ hb, hadds₁.cell?_eq_none hnew₂, hfront, hu⟩⟩
      rw [Act.run_bind_ok hrun₁, Act.run_bind_ok hrun₂]
      exact setPart_eq_overwrite hf₂ hlive
    · refine ⟨heap₂, w₂, hadds₁.trans hadds₂, .inl ?_⟩
      rw [Act.run_bind_ok hrun₁, Act.run_bind_error hrun₂, hadds₁.exhaustion_eq]
  · exact ⟨heap₁, w₁, hadds₁, .inl (Act.run_bind_error hrun₁)⟩

end Bindings

end Heap

end ConsoleLisp
