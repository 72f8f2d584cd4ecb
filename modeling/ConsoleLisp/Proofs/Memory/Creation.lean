import ConsoleLisp.Context
import ConsoleLisp.Proofs.Evaluation.Confinement
import ConsoleLisp.Proofs.Memory.Rooted

/-!
# New contexts

A context is made with one root scope and natives bound in it. Each binding takes four cells, and all
of them are reached from the scope.

Results:
* `Rooted.bindNative`, `Rooted.install`: natives are bound in a rooted heap with nothing left over.
* **`create_rooted`**: the heap of a new context.
-/

namespace ConsoleLisp

namespace Heap

variable {κ : Type} {heap heap' : Heap κ} {roots : List Handle} {e : Handle} {cell : Cell κ}

/-! ## Single cells -/

/-- Every live handle is nil or reached from the roots. -/
def ReachesAll (heap : Heap κ) (roots : List Handle) : Prop :=
  ∀ e, heap.isLive e = true → heap.Reaches roots e

theorem allocate_of_ok (w : heap.WellFormed) (hp : heap.PartsLive cell)
    (h : allocate cell heap = (.ok e, heap')) :
    heap'.WellFormed ∧ heap.Updates e cell heap' ∧ heap.cell? e = none := by
  rcases allocate_spec w hp with ⟨-, -, hrun⟩ | ⟨f, heap₁, hrun, w', hu, hnew⟩
  · cases hrun.symm.trans h
  · cases hrun.symm.trans h
    exact ⟨w', hu, hnew⟩

theorem pair_of_ok (w : heap.WellFormed) {head tail : Handle} (hh : heap.isLive head = true)
    (ht : heap.isLive tail = true) (h : pair head tail heap = (.ok e, heap')) :
    heap'.WellFormed ∧ heap.Updates e (.pair head tail) heap' ∧ heap.cell? e = none := by
  rw [pair_eq_allocate hh ht] at h
  refine allocate_of_ok w (fun head' tail' heq => ?_) h
  cases heq
  exact ⟨hh, ht⟩

/-- A new cell is one root more. -/
theorem ReachesAll.add (h : heap.ReachesAll roots) (hu : heap.Updates e cell heap')
    (hnew : heap.cell? e = none) : heap'.ReachesAll (e :: roots) := by
  have hnil : heap'.nilHandle = heap.nilHandle := by rw [nilHandle, nilHandle, hu.id_eq]
  intro f hf
  by_cases heq : f = e
  · rw [heq]
    exact .root (List.mem_cons_of_mem _ List.mem_cons_self)
  · obtain ⟨c, hc⟩ := isLive_iff.mp hf
    rw [hu.cell?_eq, if_neg heq] at hc
    refine (h f (isLive_of_cell? hc)).mono (fun g hg => ?_) fun g _ c hc =>
      (hu.extends hnew).cell?_mono g c hc
    rcases List.mem_cons.mp hg with rfl | hg
    · rw [← hnil]
      exact .root List.mem_cons_self
    · exact .root (List.mem_cons_of_mem _ (List.mem_cons_of_mem _ hg))

/-- A cell that is none of the wrong natives. -/
theorem Updates.natives {native : Native κ → Prop} (hu : heap.Updates e cell heap')
    (hcell : ∀ procedure, cell = .native procedure → native procedure)
    (h : ∀ e procedure, heap.cell? e = some (.native procedure) → native procedure) (f : Handle)
    (procedure : Native κ) (hc : heap'.cell? f = some (.native procedure)) : native procedure := by
  rw [hu.cell?_eq] at hc
  split at hc
  · exact hcell procedure (Option.some.inj hc)
  · exact h f procedure hc

theorem isTidy_iff {root : Handle} (w : heap.WellFormed) (hroot : heap.isLive root = true) :
    heap.IsTidy root ↔ heap.ReachesAll [root] := by
  constructor
  · intro h e he
    exact (reaches_iff_kept w e).mpr ((h e).mp he)
  · refine fun h e => ⟨fun he => (reaches_iff_kept w e).mp (h e he), fun he => ?_⟩
    exact isLive_iff.mpr (((reaches_iff_kept w e).mpr he).exists_cell? w
      (List.forall_mem_singleton.mpr hroot))

/-! ## Bindings of natives -/

variable {native : Native κ → Prop} {scope : Scope} {bound : List Binding}

/-- What a binding makes of a heap: two new pairs, and a new frame in the pair of the scope. -/
structure Binds (heap : Heap κ) (scope : Scope) (symbol value frame parent binding front : Handle)
    (heap' : Heap κ) : Prop where
  id_eq : heap'.id = heap.id
  scope_eq : heap'.cell? scope.chain = some (.pair front parent)
  front_new : heap.cell? front = none
  front_eq : heap'.cell? front = some (.pair binding frame)
  binding_new : heap.cell? binding = none
  binding_eq : heap'.cell? binding = some (.pair symbol value)
  same : ∀ e c, e ≠ scope.chain → heap.cell? e = some c → heap'.cell? e = some c
  only : ∀ e c, heap'.cell? e = some c →
    e = scope.chain ∨ e = front ∨ e = binding ∨ heap.cell? e = some c

variable {symbol value frame parent : Handle} {name : Text}

/-- A binding that is made. -/
theorem bind_binds (w : heap.WellFormed) (hs : heap.cell? symbol = some (.symbol name))
    (hf : heap.cell? scope.chain = some (.pair frame parent)) (hv : heap.isLive value = true)
    (hrun : scope.bind symbol value heap = (.ok (), heap')) :
    ∃ binding front, heap.Binds scope symbol value frame parent binding front heap' := by
  rw [bind_eq hs hf] at hrun
  obtain ⟨binding, heap₁, hrun₁, hrun⟩ := Act.exists_of_run_bind hrun
  obtain ⟨w₁, hu₁, hnew₁⟩ := pair_of_ok w (isLive_of_cell? hs) hv hrun₁
  have hext₁ := hu₁.extends hnew₁
  have hb₁ : heap₁.cell? binding = some (.pair symbol value) := by
    rw [hu₁.cell?_eq, if_pos rfl]
  have hframe := hext₁.isLive (isLive_iff.mpr (w.parts_of_pair hf).1)
  obtain ⟨front, heap₂, hrun₂, hset⟩ := Act.exists_of_run_bind hrun
  obtain ⟨w₂, hu₂, hnew₂⟩ := pair_of_ok w₁ (isLive_of_cell? hb₁) hframe hrun₂
  have hext₂ := hu₂.extends hnew₂
  have hext := hext₁.trans hext₂
  have hf₂ : heap₂.cell? front = some (.pair binding frame) := by rw [hu₂.cell?_eq, if_pos rfl]
  have hscope := hext.cell?_mono _ _ hf
  obtain ⟨-, hu⟩ := overwrite_spec w₂ hscope
    (partsLive_replacePart w₂ hscope (isLive_of_cell? hf₂) .head)
  cases (setPart_eq_overwrite hscope (isLive_of_cell? hf₂)).symm.trans hset
  have hkeep : ∀ e c, e ≠ scope.chain → heap₂.cell? e = some c →
      (overwrite scope.chain.index (replacePart .head front frame parent) heap₂).cell? e =
        some c := by
    intro e c hne hc
    rw [hu.cell?_eq, if_neg hne, hc]
  have hne : ∀ e, heap.cell? e = none → e ≠ scope.chain := by
    rintro e he rfl
    cases he.symm.trans hf
  have hfnew := hext₁.cell?_eq_none hnew₂
  refine ⟨binding, front, hu.id_eq.trans hext.id_eq, (hu.cell?_eq _).trans (if_pos rfl), hfnew,
    hkeep _ _ (hne _ hfnew) hf₂, hnew₁, hkeep _ _ (hne _ hnew₁) (hext₂.cell?_mono _ _ hb₁),
    fun e c he hc => hkeep e c he (hext.cell?_mono e c hc), fun e c hc => ?_⟩
  rw [hu.cell?_eq, hu₂.cell?_eq, hu₁.cell?_eq] at hc
  split_ifs at hc with h₁ h₂ h₃
  · exact .inl h₁
  · exact .inr (.inl h₂)
  · exact .inr (.inr (.inl h₃))
  · exact .inr (.inr (.inr hc))

namespace Binds

variable {binding front : Handle}

/-- What was below a value that does not reach the scope still is. -/
theorem parts_below (h : heap.Binds scope symbol value frame parent binding front heap')
    (w : heap.WellFormed) {e f : Handle} (he : heap.isLive e = true)
    (hnot : ¬ Reach heap.cell? [e] scope.chain) (hf : Reach heap.cell? [e] f)
    {p : Handle × Handle} (hp : p ∈ (heap'.cell? f).bind Cell.pair?) :
    Reach heap.cell? [e] p.1 ∧ Reach heap.cell? [e] p.2 := by
  obtain ⟨c, hc⟩ := w.exists_cell?_of_reach (List.forall_mem_singleton.mpr he) hf
  have hne : f ≠ scope.chain := by
    rintro rfl
    exact hnot hf
  refine hf.parts ?_
  rw [hc, ← h.same f c hne hc]
  exact hp

/-- Below the new frame there are the two pairs, the symbol, and what was below the value and the old
frame. -/
theorem hidden (h : heap.Binds scope symbol value frame parent binding front heap')
    (w : heap.WellFormed) (hscope : heap.cell? scope.chain = some (.pair frame parent))
    (hs : heap.cell? symbol = some (.symbol name)) (hv : heap.isLive value = true)
    (hvalue : ¬ Reach heap.cell? [value] scope.chain)
    (hframe : ¬ Reach heap.cell? [frame] scope.chain) :
    ¬ Reach heap'.cell? [front] scope.chain := by
  have hlive := isLive_iff.mpr (w.parts_of_pair hscope).1
  have hne : ∀ e, heap.cell? e = none → scope.chain ≠ e := by
    rintro e he rfl
    cases he.symm.trans hscope
  have hsymbol : symbol ≠ scope.chain := by
    rintro rfl
    cases hscope.symm.trans hs
  intro hreach
  have hclosed := Reach.of_closed (P := fun f => f = front ∨ f = binding ∨ f = symbol ∨
    Reach heap.cell? [value] f ∨ Reach heap.cell? [frame] f)
    (List.forall_mem_singleton.mpr (.inl rfl)) ?_ hreach
  · rcases hclosed with heq | heq | heq | hreach | hreach
    · exact hne front h.front_new heq
    · exact hne binding h.binding_new heq
    · exact hsymbol heq.symm
    · exact hvalue hreach
    · exact hframe hreach
  · rintro f (rfl | rfl | rfl | hf | hf) p hp
    · rw [h.front_eq] at hp
      cases hp
      exact ⟨.inr (.inl rfl), .inr (.inr (.inr (.inr (.root List.mem_cons_self))))⟩
    · rw [h.binding_eq] at hp
      cases hp
      exact ⟨.inr (.inr (.inl rfl)), .inr (.inr (.inr (.inl (.root List.mem_cons_self))))⟩
    · rw [h.same _ _ hsymbol hs] at hp
      cases hp
    · obtain ⟨hhead, htail⟩ := h.parts_below w hv hvalue hf hp
      exact ⟨.inr (.inr (.inr (.inl hhead))), .inr (.inr (.inr (.inl htail)))⟩
    · obtain ⟨hhead, htail⟩ := h.parts_below w hlive hframe hf hp
      exact ⟨.inr (.inr (.inr (.inr hhead))), .inr (.inr (.inr (.inr htail)))⟩

/-- What was reached from the scope, the symbol and the value is reached from the scope. -/
theorem reachesAll (h : heap.Binds scope symbol value frame parent binding front heap')
    (hscope : heap.cell? scope.chain = some (.pair frame parent))
    (hall : heap.ReachesAll [value, symbol, scope.chain]) : heap'.ReachesAll [scope.chain] := by
  have hroot : heap'.Reaches [scope.chain] scope.chain :=
    .root (List.mem_cons_of_mem _ List.mem_cons_self)
  have hfront := hroot.head h.scope_eq
  have hbinding := hfront.head h.front_eq
  have hnil : heap'.nilHandle = heap.nilHandle := by rw [nilHandle, nilHandle, h.id_eq]
  have hparts : ∀ {e head tail}, heap'.Reaches [scope.chain] e →
      heap.cell? e = some (.pair head tail) →
      heap'.Reaches [scope.chain] head ∧ heap'.Reaches [scope.chain] tail := by
    intro e head tail he hc
    by_cases heq : e = scope.chain
    · rw [heq, hscope] at hc
      cases hc
      exact ⟨hfront.tail h.front_eq, hroot.tail h.scope_eq⟩
    · exact ⟨he.head (h.same e _ heq hc), he.tail (h.same e _ heq hc)⟩
  have hreach : ∀ {e}, heap.Reaches [value, symbol, scope.chain] e →
      heap'.Reaches [scope.chain] e := by
    intro e he
    induction he with
    | root hmem =>
      simp only [List.mem_cons, List.not_mem_nil, or_false] at hmem
      rcases hmem with rfl | rfl | rfl | rfl
      · rw [← hnil]
        exact .root List.mem_cons_self
      · exact hbinding.tail h.binding_eq
      · exact hbinding.head h.binding_eq
      · exact hroot
    | head _ hc ih => exact (hparts ih hc).1
    | tail _ hc ih => exact (hparts ih hc).2
  intro e he
  obtain ⟨c, hc⟩ := isLive_iff.mp he
  rcases h.only e c hc with rfl | rfl | rfl | hc
  · exact hroot
  · exact hfront
  · exact hbinding
  · exact hreach (hall e (isLive_of_cell? hc))

end Binds

/-- **A binding** of a value that does not reach the scope. When all that is live was reached from the
scope, the symbol and the value, it is reached from the scope afterwards. -/
theorem Rooted.bind (h : heap.Rooted native scope bound)
    (hs : heap.cell? symbol = some (.symbol name)) (hv : heap.isLive value = true)
    (hvalue : ¬ Reach heap.cell? [value] scope.chain)
    (hrun : scope.bind symbol value heap = (.ok (), heap')) :
    heap'.Rooted native scope (⟨name, value⟩ :: bound) ∧
      (heap.ReachesAll [value, symbol, scope.chain] → heap'.ReachesAll [scope.chain]) := by
  obtain ⟨frame, hscope, -, hframe⟩ := h.exists_frame
  obtain ⟨binding, front, hbinds⟩ := bind_binds h.wellFormed hs hscope hv hrun
  have hframes := h.frames.put List.mem_cons_self (symbolName?_eq_ok_iff.mpr hs) hrun
  have hput : Frames.put [⟨scope, none, bound⟩] scope ⟨name, value⟩ =
      [⟨scope, none, ⟨name, value⟩ :: bound⟩] :=
    congrArg (fun bindings => [ScopeFrame.mk scope none bindings]) (if_pos rfl)
  rw [hput] at hframes
  refine ⟨⟨hframes, fun frame' parent hc => ?_, fun e procedure hc => ?_⟩,
    hbinds.reachesAll hscope⟩
  · cases hbinds.scope_eq.symm.trans hc
    exact hbinds.hidden h.wellFormed hscope hs hv hvalue hframe
  · rcases hbinds.only e _ hc with rfl | rfl | rfl | hc'
    · cases hc.symm.trans hbinds.scope_eq
    · cases hc.symm.trans hbinds.front_eq
    · cases hc.symm.trans hbinds.binding_eq
    · exact h.natives e procedure hc'

/-- A binding gives a native its name. -/
structure Gives (heap : Heap κ) (n : Text × Native κ) (binding : Binding) : Prop where
  name_eq : binding.name = n.1
  native_eq : heap.cell? binding.value = some (.native n.2)

/-- Natives stay what they are. -/
def KeepsNatives (heap heap' : Heap κ) : Prop :=
  ∀ e procedure, heap.cell? e = some (.native procedure) →
    heap'.cell? e = some (.native procedure)

/-- **A native is bound** in a heap with nothing left over. -/
theorem Rooted.bindNative (h : heap.Rooted native scope bound)
    (hall : heap.ReachesAll [scope.chain]) {procedure : Native κ} (hn : native procedure)
    (hrun : NativeSet.bindNative scope name procedure heap = (.ok (), heap')) :
    ∃ binding, heap'.Gives (name, procedure) binding ∧ heap.KeepsNatives heap' ∧
      heap'.Rooted native scope (binding :: bound) ∧ heap'.ReachesAll [scope.chain] := by
  obtain ⟨symbol, heap₁, hrun₁, hrun⟩ := Act.exists_of_run_bind hrun
  obtain ⟨w₁, hu₁, hnew₁⟩ := allocate_of_ok h.wellFormed (partsLive_atom rfl) hrun₁
  obtain ⟨value, heap₂, hrun₂, hbind⟩ := Act.exists_of_run_bind hrun
  obtain ⟨w₂, hu₂, hnew₂⟩ := allocate_of_ok w₁ (partsLive_atom rfl) hrun₂
  have hrooted₁ := h.extend w₁ (hu₁.extends hnew₁) (hu₁.natives nofun h.natives)
  have hrooted₂ := hrooted₁.extend w₂ (hu₂.extends hnew₂)
    (hu₂.natives (fun p hp => by cases hp; exact hn) hrooted₁.natives)
  have hs : heap₂.cell? symbol = some (.symbol name) :=
    (hu₂.extends hnew₂).cell?_mono _ _ ((hu₁.cell?_eq symbol).trans (if_pos rfl))
  have hv : heap₂.cell? value = some (.native procedure) :=
    (hu₂.cell?_eq value).trans (if_pos rfl)
  obtain ⟨frame, hscope, -, hframe⟩ := hrooted₂.exists_frame
  -- a native is no pair, and so it is not that of the scope
  have hother : ∀ e p, heap₂.cell? e = some (.native p) → e ≠ scope.chain := by
    rintro e p he rfl
    cases he.symm.trans hscope
  -- from the native nothing else is reached
  have hvalue : ¬ Reach heap₂.cell? [value] scope.chain := fun hreach =>
    hother value _ hv (hreach.of_closed (P := (· = value)) (List.forall_mem_singleton.mpr rfl)
      (by rintro _ rfl p hp; rw [hv] at hp; cases hp)).symm
  obtain ⟨binding, front, hbinds⟩ := bind_binds w₂ hs hscope (isLive_of_cell? hv) hbind
  obtain ⟨hrooted, htidy⟩ := hrooted₂.bind hs (isLive_of_cell? hv) hvalue hbind
  refine ⟨⟨name, value⟩, ⟨rfl, hbinds.same _ _ (hother _ _ hv) hv⟩, fun e p he => ?_, hrooted,
    htidy ((hall.add hu₁ hnew₁).add hu₂ hnew₂)⟩
  have he₂ := ((hu₁.extends hnew₁).trans (hu₂.extends hnew₂)).cell?_mono _ _ he
  exact hbinds.same _ _ (hother _ _ he₂) he₂

/-- **Natives are bound** one after another, each in front of those before it. -/
theorem Rooted.install (natives : NativeSet κ) (h : heap.Rooted native scope bound)
    (hall : heap.ReachesAll [scope.chain]) (hn : ∀ n ∈ natives, native n.2)
    (hrun : natives.install scope heap = (.ok (), heap')) :
    ∃ made, List.Forall₂ heap'.Gives natives.reverse made ∧ heap.KeepsNatives heap' ∧
      heap'.Rooted native scope (made ++ bound) ∧ heap'.ReachesAll [scope.chain] := by
  induction natives generalizing heap bound with
  | nil =>
    cases hrun
    exact ⟨[], .nil, fun _ _ he => he, h, hall⟩
  | cons n rest ih =>
    obtain ⟨hfirst, hrest⟩ := List.forall_mem_cons.mp hn
    rw [NativeSet.install, List.forM] at hrun
    obtain ⟨_, heap₁, hbind, hrun⟩ := Act.exists_of_run_bind hrun
    obtain ⟨binding, hgives, hkeeps, h₁, hall₁⟩ := h.bindNative hall hfirst hbind
    obtain ⟨made, hmade, hkeeps', h', hall'⟩ := ih h₁ hall₁ hrest hrun
    refine ⟨made ++ [binding], ?_, fun e p he => hkeeps' e p (hkeeps e p he), ?_, hall'⟩
    · rw [List.reverse_cons]
      exact List.rel_append hmade
        (.cons ⟨hgives.name_eq, hkeeps' _ _ hgives.native_eq⟩ .nil)
    · rwa [List.append_assoc]

/-- A root scope in a new heap. -/
theorem root_rooted {id : Nat} {maxSlots : Number} (hcreate : create id maxSlots = .ok heap)
    (hrun : Scope.root heap = (.ok scope, heap')) :
    heap'.Rooted native scope [] ∧ heap'.ReachesAll [scope.chain] := by
  have w := create_wellFormed hcreate
  have hnil := w.cell?_nil
  rw [Scope.root, Act.run_bind_ok (nil_spec w)] at hrun
  obtain ⟨chain, heap₁, hpair, ⟨⟩⟩ := Act.exists_of_run_bind hrun
  obtain ⟨w', hu, hnew⟩ := pair_of_ok w (isLive_of_cell? hnil) (isLive_of_cell? hnil) hpair
  have hc : heap'.cell? chain = some (.pair heap.nilHandle heap.nilHandle) :=
    (hu.cell?_eq chain).trans (if_pos rfl)
  have hne : chain ≠ heap.nilHandle := by
    rintro rfl
    cases hnew.symm.trans hnil
  have hempty : HoldsFrames heap [] := ⟨w, List.nodup_nil, trivial, by simp⟩
  refine ⟨⟨hempty.made w' (hu.extends hnew) (by simp) hnew hc, fun frame parent hc' => ?_,
    hu.natives (by simp) fun e procedure he => ?_⟩, fun e he => ?_⟩
  · cases hc.symm.trans hc'
    -- from nil nothing else is reached
    intro hreach
    have honly : chain = heap.nilHandle := hreach.of_closed (P := (· = heap.nilHandle))
      (List.forall_mem_singleton.mpr rfl) (by
        rintro _ rfl p hp
        rw [(hu.extends hnew).cell?_mono _ _ hnil] at hp
        cases hp)
    exact hne honly
  · rw [eq_nilHandle_of_create hcreate he, hnil] at he
    cases he
  · obtain ⟨c, hd⟩ := isLive_iff.mp he
    rw [hu.cell?_eq] at hd
    split_ifs at hd with heq
    · rw [heq]
      exact .root (List.mem_cons_of_mem _ List.mem_cons_self)
    · rw [eq_nilHandle_of_create hcreate hd, ← show heap'.nilHandle = heap.nilHandle by
        rw [nilHandle, nilHandle, hu.id_eq]]
      exact .root List.mem_cons_self

end Heap

/-! ## Contexts -/

open Heap

/-- How a context is made: a new heap, its root scope, and then the natives. -/
theorem exists_of_create {χ : Type} {id : Nat} {options : Options (Action (LevelAction χ))}
    {ctx : Context} {heap : Heap (Action (LevelAction χ))}
    (hcreate : Context.create id options = .ok (ctx, heap))
    (hnatives : ∀ n ∈ options.natives, n.2.IsStandard) :
    ∃ maxSlots heap₀ heap₁, ∃ natives : NativeSet (Action (LevelAction χ)),
      Heap.create id maxSlots = .ok heap₀ ∧ Scope.root heap₀ = (.ok ctx.scope, heap₁) ∧
      natives.install ctx.scope heap₁ = (.ok (), heap) ∧ ∀ n ∈ natives, n.2.IsStandard := by
  unfold Context.create at hcreate
  obtain ⟨-, -, hcreate⟩ := exists_of_except_bind hcreate
  obtain ⟨-, -, hcreate⟩ := exists_of_except_bind hcreate
  obtain ⟨-, -, hcreate⟩ := exists_of_except_bind hcreate
  obtain ⟨heap₀, hnew, hcreate⟩ := exists_of_except_bind hcreate
  dsimp only at hcreate
  generalize hset : (if options.builtins then Builtin.natives else []) ++ options.natives = natives
    at hcreate
  have hstandard : ∀ n ∈ natives, n.2.IsStandard := by
    rw [← hset]
    refine List.forall_mem_append.mpr ⟨fun n hn => ?_, hnatives⟩
    split at hn
    · exact List.mem_map_of_mem (List.mem_append_left _ hn)
    · cases hn
  rcases hroot : Context.rootScope natives heap₀ with ⟨result, heap₁⟩
  rw [hroot] at hcreate
  obtain ⟨scope, hresult, ⟨⟩⟩ := exists_of_except_bind hcreate
  subst hresult
  obtain ⟨_, heap₂, hscope, hrun⟩ := Act.exists_of_run_bind hroot
  obtain ⟨_, _, hinstall, ⟨⟩⟩ := Act.exists_of_run_bind hrun
  exact ⟨_, heap₀, heap₂, natives, hnew, hscope, hinstall, hstandard⟩

/-- **A new context** has a root scope with the natives asked for, and its heap holds nothing else. -/
theorem create_rooted {χ : Type} {id : Nat} {options : Options (Action (LevelAction χ))}
    {ctx : Context} {heap : Heap (Action (LevelAction χ))}
    (hcreate : Context.create id options = .ok (ctx, heap))
    (hnatives : ∀ n ∈ options.natives, n.2.IsStandard) :
    (∃ bound, heap.Rooted Native.IsStandard ctx.scope bound) ∧ heap.IsTidy ctx.scope.chain := by
  obtain ⟨_, heap₀, heap₁, natives, hnew, hscope, hinstall, hstandard⟩ :=
    exists_of_create hcreate hnatives
  obtain ⟨hrooted, hall⟩ := root_rooted hnew hscope
  obtain ⟨_, -, -, h, hall⟩ := hrooted.install natives hall hstandard hinstall
  exact ⟨⟨_, h⟩, (isTidy_iff h.wellFormed h.scope_isLive).mpr hall⟩

end ConsoleLisp
