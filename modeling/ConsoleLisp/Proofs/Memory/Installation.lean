import ConsoleLisp.Proofs.Evaluation.Cycle
import ConsoleLisp.Proofs.Heap.Capacity
import ConsoleLisp.Proofs.Memory.Creation

/-!
# What a new context takes

A new context takes a cell for nil, one for its root scope, and four for each native: its name, the
native itself, the binding and a new front of the frame. Every action here takes a fixed number of
cells (`Takes`), and where there is no room for them it is refused, so the bounds under which no
context can be made are known exactly.

Results:
* `Takes.bind`: a sequence takes what its parts take.
* `Rooted.install_takes`, `rootScope_takes`: what the natives of a context take.
* `Rooted.finds`: what a name finds when natives were bound.
* **`creation_is_exact`**: when a context is refused, and what is in the heap of one that is made.
-/

namespace ConsoleLisp

namespace Heap

variable {κ α γ : Type} {heap heap' : Heap κ} {scope : Scope} {bound : List Binding}
  {native : Native κ → Prop}

/-! ## Actions that take cells -/

/-- The action takes `n` cells when there is room for them, and is refused without the room. It may
change cells that are there. -/
def Takes (n : Nat) (action : HeapM κ α) (heap : Heap κ) : Prop :=
  ∃ heap', heap'.id = heap.id ∧ heap'.maxSlots = heap.maxSlots ∧
    ((∃ a, action heap = (.ok a, heap') ∧ heap'.live = heap.live + n) ∨
      action heap = (.error heap.exhaustion, heap') ∧ ¬ heap.Room n)

theorem Allocates.takes {n : Nat} {action : HeapM κ α} {P : Heap κ → α → Prop}
    (h : Allocates n action heap P) : Takes n action heap := by
  obtain ⟨heap', -, hext, hrun⟩ := h
  refine ⟨heap', hext.id_eq, hext.maxSlots_eq, hrun.imp_left ?_⟩
  rintro ⟨a, hrun, hlive, -⟩
  exact ⟨a, hrun, hlive⟩

namespace Takes

variable {n m : Nat}

theorem pure (a : α) (heap : Heap κ) : Takes 0 (pure a : HeapM κ α) heap :=
  ⟨heap, rfl, rfl, .inl ⟨a, rfl, rfl⟩⟩

/-- **A sequence takes what its parts take.** -/
theorem bind {x : HeapM κ α} {f : α → HeapM κ γ} (hx : Takes n x heap)
    (hf : ∀ a heap', x heap = (.ok a, heap') → Takes m (f a) heap') :
    Takes (n + m) (x >>= f) heap := by
  obtain ⟨heap', hid, hmax, ⟨a, hrun, hlive⟩ | ⟨hrun, hroom⟩⟩ := hx
  · obtain ⟨heap'', hid', hmax', hrest⟩ := hf a heap' hrun
    refine ⟨heap'', hid'.trans hid, hmax'.trans hmax, ?_⟩
    rw [Act.run_bind_ok hrun]
    rcases hrest with ⟨b, hrun', hlive'⟩ | ⟨hrun', hroom⟩
    · exact .inl ⟨b, hrun', by omega⟩
    · refine .inr ⟨by rw [hrun', exhaustion, exhaustion, hid, hmax], fun h => hroom ?_⟩
      intro limit hlimit
      have hle := h limit (by rwa [capacity?, hmax] at hlimit)
      omega
  · refine ⟨heap', hid, hmax, .inr ⟨Act.run_bind_error hrun, fun h => hroom ?_⟩⟩
    intro limit hlimit
    have hle := h limit hlimit
    omega

end Takes

/-- **A binding takes two cells.** Changing the scope takes none. -/
theorem bind_takes {symbol value frame parent : Handle} {name : Text} (w : heap.WellFormed)
    (hs : heap.cell? symbol = some (.symbol name))
    (hchain : heap.cell? scope.chain = some (.pair frame parent))
    (hv : heap.isLive value = true) : Takes 2 (scope.bind symbol value) heap := by
  have hbinding := pair_growsBy w (isLive_of_cell? hs) hv
  have htakes : Takes 2 (do
      let binding ← pair symbol value
      setHead scope.chain (← pair binding frame) : HeapM κ Unit) heap := by
    refine Takes.bind (m := 1) hbinding.takes fun binding heap₁ hrun₁ => ?_
    obtain ⟨w₁, hext₁, -, hc₁, -⟩ := hbinding.of_ok hrun₁
    have hframe := hext₁.isLive (isLive_iff.mpr (w.parts_of_pair hchain).1)
    have hfront := pair_growsBy w₁ (isLive_of_cell? hc₁) hframe
    refine Takes.bind (m := 0) hfront.takes fun front heap₂ hrun₂ => ?_
    obtain ⟨-, hext₂, -, hc₂, -⟩ := hfront.of_ok hrun₂
    have hchain₂ := (hext₁.trans hext₂).cell?_mono _ _ hchain
    have hset : setPart .head scope.chain front heap₂ = _ :=
      setPart_eq_overwrite hchain₂ (isLive_of_cell? hc₂)
    refine ⟨_, ?_, ?_, .inl ⟨(), hset, ?_⟩⟩ <;> rfl
  rwa [Takes, ← bind_eq hs hchain] at htakes

/-- **A native takes four cells**: its name, itself and its binding. -/
theorem Rooted.bindNative_takes (h : heap.Rooted native scope bound) (name : Text)
    (procedure : Native κ) : Takes 4 (NativeSet.bindNative scope name procedure) heap := by
  have hname : heap.PartsLive (.symbol name) := partsLive_atom rfl
  have hsymbol := allocate_growsBy h.wellFormed hname
  refine Takes.bind (m := 3) hsymbol.takes fun symbol heap₁ hrun₁ => ?_
  obtain ⟨w₁, hext₁, -, hc₁, -⟩ := hsymbol.of_ok hrun₁
  have hprocedure : heap₁.PartsLive (.native procedure) := partsLive_atom rfl
  have hvalue := allocate_growsBy w₁ hprocedure
  refine Takes.bind (m := 2) hvalue.takes fun value heap₂ hrun₂ => ?_
  obtain ⟨w₂, hext₂, -, hc₂, -⟩ := hvalue.of_ok hrun₂
  obtain ⟨frame, hchain, -⟩ := h.exists_frame
  exact bind_takes w₂ (hext₂.cell?_mono _ _ hc₁) ((hext₁.trans hext₂).cell?_mono _ _ hchain)
    (isLive_of_cell? hc₂)

/-- **Natives take four cells each.** By induction on the natives. -/
theorem Rooted.install_takes (natives : NativeSet κ) (h : heap.Rooted native scope bound)
    (hall : heap.ReachesAll [scope.chain]) (hn : ∀ n ∈ natives, native n.2) :
    Takes (4 * natives.length) (natives.install scope) heap := by
  induction natives generalizing heap bound with
  | nil => exact .pure () heap
  | cons n rest ih =>
    obtain ⟨hfirst, hrest⟩ := List.forall_mem_cons.mp hn
    have hcount : 4 * (n :: rest).length = 4 + 4 * rest.length := by
      rw [List.length_cons]
      omega
    rw [NativeSet.install, List.forM, hcount]
    refine Takes.bind (h.bindNative_takes n.1 n.2) fun _ heap₁ hrun => ?_
    obtain ⟨_, -, -, h₁, hall₁⟩ := h.bindNative hall hfirst hrun
    exact ih h₁ hall₁ hrest

theorem root_takes (w : heap.WellFormed) : Takes 1 (Scope.root : HeapM κ Scope) heap := by
  have hnil := isLive_of_cell? w.cell?_nil
  have hnone : Takes 0 (nil : HeapM κ Handle) heap :=
    ⟨heap, rfl, rfl, .inl ⟨heap.nilHandle, nil_spec w, rfl⟩⟩
  refine Takes.bind (n := 0) (m := 1) hnone fun e heap' hrun => ?_
  cases (nil_spec w).symm.trans hrun
  exact Takes.bind (m := 0) (pair_growsBy w hnil hnil).takes fun _ heap' _ => .pure _ heap'

/-- A root scope with natives takes four cells for each and one more. -/
theorem rootScope_takes {id : Nat} {maxSlots : Number} (hcreate : create id maxSlots = .ok heap)
    (natives : NativeSet κ) : Takes (1 + 4 * natives.length) (Context.rootScope natives) heap := by
  refine (root_takes (create_wellFormed hcreate)).bind fun scope heap₁ hroot => ?_
  obtain ⟨h, hall⟩ : heap₁.Rooted (fun _ => True) scope [] ∧ _ := root_rooted hcreate hroot
  exact Takes.bind (m := 0) (h.install_takes natives hall fun _ _ => trivial)
    fun _ heap' _ => .pure scope heap'

/-! ## The bound on the slots -/

namespace StaysWithin

variable {maxSlots : Number}

theorem bindNative (scope : Scope) (name : Text) (procedure : Native κ) :
    StaysWithin maxSlots (NativeSet.bindNative scope name procedure : HeapM κ Unit) := by
  refine (allocate _).bind fun symbol => (allocate _).bind fun value => ?_
  refine (view _).bind fun cell => ?_
  split
  · exact fun _ h => h
  · exact (view _).bind fun _ => (pair _ _).bind fun _ => (pair _ _).bind fun _ => setPart _ _ _

theorem install (scope : Scope) (natives : NativeSet κ) :
    StaysWithin maxSlots (natives.install scope) := by
  induction natives with
  | nil => exact .pure ()
  | cons n rest ih => exact (bindNative scope n.1 n.2).bind fun _ => ih

theorem rootScope (natives : NativeSet κ) :
    StaysWithin maxSlots (Context.rootScope natives : HeapM κ Scope) :=
  (nil.bind fun _ => (pair _ _).bind fun _ => .pure _).bind fun _ =>
    (install _ natives).bind fun _ => .pure _

end StaysWithin

/-! ## What a name finds -/

/-- What a lookup of a name gives: a value that is this native, or nothing. -/
def Finds (heap : Heap κ) (scope : Scope) (name : Text) : Option (Native κ) → Prop
  | some procedure => ∃ e, heap.lookupName scope name = .ok (some e) ∧
      heap.inspect e = .ok (.native procedure)
  | none => heap.lookupName scope name = .ok none

theorem Rooted.lookupName_eq (h : heap.Rooted native scope bound) (name : Text) :
    heap.lookupName scope name =
      .ok ((bound.find? fun b => b.name = name).map Binding.value) := by
  rw [h.frames.lookupName_eq List.mem_cons_self]
  simp [Frames.lookup, Frames.chain, Frames.local?, Frames.own]

/-- The first binding of a name is that of the first entry of the name. -/
theorem find?_gives {natives : NativeSet κ} (hgives : List.Forall₂ heap.Gives natives bound)
    (name : Text) :
    Option.Rel (fun n binding => heap.Gives n binding) (natives.find? fun n => n.1 == name)
      (bound.find? fun b => b.name = name) := by
  induction hgives with
  | nil => exact .none
  | @cons n binding _ _ hfirst _ ih =>
    rw [List.find?_cons, List.find?_cons, hfirst.name_eq, Bool.beq_eq_decide_eq]
    cases decide (n.1 = name) with
    | true => exact .some hfirst
    | false => exact ih

/-- **A name finds the native of the first entry of that name**, and nothing when there is none. -/
theorem Rooted.finds {natives : NativeSet κ} (h : heap.Rooted native scope bound)
    (hgives : List.Forall₂ heap.Gives natives bound) (name : Text) :
    heap.Finds scope name (Keyed.get? name natives) := by
  have hlookup := h.lookupName_eq name
  have hfirst := find?_gives hgives name
  rw [Keyed.get?]
  generalize natives.find? _ = entry at hfirst
  generalize bound.find? _ = binding at hfirst hlookup
  cases hfirst with
  | none => exact hlookup
  | some hgives => exact ⟨_, hlookup, inspect_eq_ok_iff.mpr hgives.native_eq⟩

end Heap

/-! ## Contexts -/

open Heap

variable {χ : Type}

theorem Keyed.get?_eq_some_iff {α : Type} {entries : Keyed α}
    (h : (entries.map Prod.fst).Nodup) {key : Text} {value : α} :
    Keyed.get? key entries = some value ↔ (key, value) ∈ entries := by
  rw [Keyed.get?, Option.map_eq_some_iff]
  constructor
  · rintro ⟨entry, hfind, rfl⟩
    have hkey : entry.1 = key := by simpa using List.find?_some hfind
    rw [← hkey]
    exact List.mem_of_find?_eq_some hfind
  · intro hmem
    cases hfind : entries.find? fun entry => entry.1 == key with
    | none => exact absurd (beq_self_eq_true key) (List.find?_eq_none.mp hfind _ hmem)
    | some entry =>
      have hkey : entry.1 = key := by simpa using List.find?_some hfind
      rw [List.inj_on_of_nodup_map h (List.mem_of_find?_eq_some hfind) hmem hkey]
      exact ⟨_, rfl, rfl⟩

/-- With distinct keys the order of the entries does not matter. -/
theorem Keyed.get?_reverse {α : Type} {entries : Keyed α} (h : (entries.map Prod.fst).Nodup)
    (key : Text) : Keyed.get? key entries.reverse = Keyed.get? key entries := by
  have hreverse : (entries.reverse.map Prod.fst).Nodup := by
    rw [List.map_reverse]
    exact List.nodup_reverse.mpr h
  ext value
  rw [Keyed.get?_eq_some_iff hreverse, Keyed.get?_eq_some_iff h, List.mem_reverse]

/-- The built-in natives have distinct names. -/
theorem Builtin.nodup_natives :
    ((Builtin.natives : NativeSet (Action χ)).map Prod.fst).Nodup := by
  rw [Builtin.natives, List.map_map]
  exact (by decide : (Builtin.all.map Builtin.name).Nodup)

/-- A setting is accepted when it is none or a whole number of at least one. -/
theorem CountSetting.check_eq_ok_iff {setting : CountSetting} {limit : Option Number} :
    setting.check limit = .ok () ↔ ∀ n, limit = some n → ∃ k, 0 < k ∧ n.IsCount k := by
  cases limit with
  | none => simp [CountSetting.check]
  | some n =>
    rw [CountSetting.check]
    by_cases hn : Number.isPositiveInteger n = true
    · rw [if_pos hn]
      refine iff_of_true rfl fun _ heq => ?_
      cases heq
      exact Number.isPositiveInteger_iff.mp hn
    · rw [if_neg hn]
      refine iff_of_false nofun fun h => hn ?_
      exact Number.isPositiveInteger_iff.mpr (h n rfl)

namespace Options

/-- The limits are none, or whole numbers of at least one. -/
structure IsValid (options : Options (Action χ)) : Prop where
  stepLimit : ∀ n, options.stepLimit = some n → ∃ k, 0 < k ∧ n.IsCount k
  depthLimit : ∀ n, options.depthLimit = some n → ∃ k, 0 < k ∧ n.IsCount k
  maxHeapSlots : ∀ n, options.maxHeapSlots = some n → ∃ k, 0 < k ∧ n.IsCount k

/-- All natives that are bound, in order. -/
def installed (options : Options (Action χ)) : NativeSet (Action χ) :=
  (if options.builtins then Builtin.natives else []) ++ options.natives

/-- How many natives are bound: the built-in ones, when they are asked for, and those of the host. -/
def nativeCount (options : Options (Action χ)) : Nat :=
  (if options.builtins then Builtin.all.length else 0) + options.natives.length

/-- The native that a name is to have: that of the host's entry under the name, the last of them,
else the built-in one of the name, when the built-in natives are asked for. -/
def native? (options : Options (Action χ)) (name : Text) : Option (Native (Action χ)) :=
  (Keyed.get? name options.natives.reverse).or
    (if options.builtins then Keyed.get? name Builtin.natives else none)

/-- The options give a bound on the slots that is below so many. -/
def BoundsBelow (options : Options (Action χ)) (cells : Nat) : Prop :=
  ∃ maxSlots k, options.maxHeapSlots = some maxSlots ∧ maxSlots.IsCount k ∧ k < cells

/-- What a new context has in its heap. -/
structure Makes (options : Options (Action χ)) (ctx : Context) (heap : Heap (Action χ)) :
    Prop where
  live_eq : heap.live = 2 + 4 * options.nativeCount
  ncard_eq : {e | heap.isLive e = true}.ncard = 2 + 4 * options.nativeCount
  /-- Everything in the heap is nil or reached from the root scope. -/
  isLive_iff : ∀ e, heap.isLive e = true ↔ heap.Kept [ctx.scope.chain] e
  /-- A collection frees nothing and leaves the heap as it is. -/
  collect_eq : ∀ {ω ν : Type} (host : Host (Action χ) ω ν) (s : Store (Action χ) ω ν),
    s.heap = heap → (ctx.collect host [] s).1 = .ok ⟨2 + 4 * options.nativeCount, 0⟩ ∧
      (ctx.collect host [] s).2.heap = heap
  finds : ∀ name, heap.Finds ctx.scope name (options.native? name)

variable {options : Options (Action χ)}

theorem length_installed : options.installed.length = options.nativeCount := by
  rw [installed, List.length_append, nativeCount, apply_ite List.length]
  rfl

/-- The newest entry of a name is the host's, else the built-in one. -/
theorem get?_installed (name : Text) :
    Keyed.get? name options.installed.reverse = options.native? name := by
  rw [installed, List.reverse_append, Keyed.get?, List.find?_append, Option.map_or, native?]
  congr 1
  cases options.builtins with
  | true => exact Keyed.get?_reverse Builtin.nodup_natives name
  | false => rfl

/-- The bound that a heap is created with is at least 1. -/
theorem IsValid.exists_heap (h : options.IsValid) (id : Nat) :
    ∃ heap₀ : Heap (Action χ),
      Heap.create id (options.maxHeapSlots.getD Number.infinity) = .ok heap₀ := by
  refine ⟨_, if_pos ?_⟩
  cases hslots : options.maxHeapSlots with
  | none => exact (by decide +kernel : Number.isAtLeastOne Number.infinity = true)
  | some n =>
    obtain ⟨k, hpos, hk⟩ := h.maxHeapSlots n hslots
    exact hk.isAtLeastOne hpos

/-- **With valid limits** the root scope decides whether there is a context. -/
theorem IsValid.create_eq (h : options.IsValid) {id : Nat} {heap₀ heap : Heap (Action χ)}
    (hcreate : Heap.create id (options.maxHeapSlots.getD Number.infinity) = .ok heap₀)
    {result : Except Fault Scope}
    (hrun : Context.rootScope options.installed heap₀ = (result, heap)) :
    Context.create id options = result.map fun scope =>
      (⟨scope, .ofNumbers options.stepLimit options.depthLimit⟩, heap) := by
  have hsteps : CountSetting.stepLimit.check options.stepLimit = .ok () :=
    CountSetting.check_eq_ok_iff.mpr h.stepLimit
  have hdepth : CountSetting.depthLimit.check options.depthLimit = .ok () :=
    CountSetting.check_eq_ok_iff.mpr h.depthLimit
  have hslots : CountSetting.maxHeapSlots.check options.maxHeapSlots = .ok () :=
    CountSetting.check_eq_ok_iff.mpr h.maxHeapSlots
  rw [installed] at hrun
  simp only [Context.create, hsteps, hdepth, hslots, hcreate, hrun, bind, Except.bind]
  cases result <;> rfl

/-- What the slots of a heap are bounded by. -/
theorem IsValid.boundsBelow_iff (h : options.IsValid) (cells : Nat) :
    options.BoundsBelow cells ↔
      ∃ limit, Number.ceil? (options.maxHeapSlots.getD Number.infinity) = some limit ∧
        limit < cells := by
  constructor
  · rintro ⟨maxSlots, k, hslots, hk, hlt⟩
    exact ⟨k, by rw [hslots]; exact hk.ceil?_eq, hlt⟩
  · rintro ⟨limit, hlimit, hlt⟩
    cases hslots : options.maxHeapSlots with
    | none =>
      have hnone : Number.ceil? Number.infinity = none := by decide +kernel
      rw [hslots] at hlimit
      cases hnone.symm.trans hlimit
    | some maxSlots =>
      obtain ⟨k, -, hk⟩ := h.maxHeapSlots maxSlots hslots
      rw [hslots] at hlimit
      obtain rfl := Option.some.inj (hk.ceil?_eq.symm.trans hlimit)
      exact ⟨maxSlots, k, hslots, hk, hlt⟩

end Options

/-- The root scope of a context that is made, and its heap. -/
theorem exists_of_rootScope {κ : Type} {id : Nat} {maxSlots : Number} {natives : NativeSet κ}
    {heap₀ heap : Heap κ} {scope : Scope} (hcreate : Heap.create id maxSlots = .ok heap₀)
    (hrun : Context.rootScope natives heap₀ = (.ok scope, heap)) :
    ∃ bound, List.Forall₂ heap.Gives natives.reverse bound ∧
      heap.Rooted (fun _ => True) scope bound ∧ heap.ReachesAll [scope.chain] := by
  obtain ⟨scope', heap₁, hroot, hrun⟩ := Act.exists_of_run_bind hrun
  obtain ⟨_, heap₂, hinstall, ⟨⟩⟩ := Act.exists_of_run_bind hrun
  obtain ⟨h, hall⟩ : heap₁.Rooted (fun _ => True) scope [] ∧ _ := root_rooted hcreate hroot
  obtain ⟨made, hgives, -, h', hall'⟩ := h.install natives hall (fun _ _ => trivial) hinstall
  rw [List.append_nil] at h'
  exact ⟨made, hgives, h', hall'⟩

/-- A new heap with a root scope and natives is within the bound of the heap. -/
theorem live_le_of_rootScope {κ : Type} {id : Nat} {maxSlots : Number} {natives : NativeSet κ}
    {heap₀ heap : Heap κ} {scope : Scope} (hcreate : Heap.create id maxSlots = .ok heap₀)
    (hrun : Context.rootScope natives heap₀ = (.ok scope, heap)) {limit : Nat}
    (hlimit : Number.ceil? maxSlots = some limit) : heap.live ≤ limit := by
  obtain ⟨_, -, h, -⟩ := exists_of_rootScope hcreate hrun
  have hwithin := StaysWithin.rootScope natives heap₀ (create_within hcreate)
  rw [hrun] at hwithin
  calc heap.live
      ≤ heap.slots.size := h.wellFormed.live_add_free ▸ Nat.le_add_right ..
    _ ≤ limit := hwithin.size_le limit hlimit

/-- What is in the heap of a context that is made. -/
theorem Options.makes_of_rootScope {options : Options (Action χ)} {id : Nat} {maxSlots : Number}
    {heap₀ heap : Heap (Action χ)} {scope : Scope} (limits : Limits)
    (hcreate : Heap.create id maxSlots = .ok heap₀)
    (hrun : Context.rootScope options.installed heap₀ = (.ok scope, heap))
    (hlive : heap.live = 2 + 4 * options.nativeCount) : options.Makes ⟨scope, limits⟩ heap := by
  obtain ⟨bound, hgives, h, hall⟩ := exists_of_rootScope hcreate hrun
  have w := h.wellFormed
  have htidy := (isTidy_iff w h.scope_isLive).mpr hall
  refine ⟨hlive, by rw [← live_eq_ncard w.toConsistent, hlive], htidy, ?_, fun name => ?_⟩
  · rintro ω ν host s rfl
    have hcollect := (htidy.collect_eq w h.scope_isLive).trans (by rw [hlive])
    have hstats : (⟨scope, limits⟩ : Context).collect host [] s = _ :=
      Act.run_bind_ok (Store.run_onHeap hcollect)
    rw [hstats]
    exact ⟨rfl, rfl⟩
  · rw [← Options.get?_installed]
    exact h.finds hgives name

/-- **Contexts are created exactly.** With valid limits, and with `n` natives to bind, a context is
refused for want of slots if and only if a bound is given that is below `2 + 4 * n`. Otherwise its
heap has exactly so many live cells, all of them nil or reached from the root scope, so that a
collection at once frees nothing; and every name finds the host's native under it, else the built-in
one, where these are asked for, else nothing. -/
theorem creation_is_exact (id : Nat) (options : Options (Action χ)) (hvalid : options.IsValid) :
    ((∃ fault, Context.create id options = .error fault ∧ fault.code? = some .heapExhausted) ↔
        options.BoundsBelow (2 + 4 * options.nativeCount)) ∧
      (¬ options.BoundsBelow (2 + 4 * options.nativeCount) →
        ∃ ctx heap, Context.create id options = .ok (ctx, heap) ∧ options.Makes ctx heap) := by
  obtain ⟨heap₀, hcreate⟩ := hvalid.exists_heap id
  have hlive₀ : heap₀.live = 1 := by
    cases create_eq_ok hcreate
    rfl
  have htakes := rootScope_takes hcreate options.installed
  rw [Options.length_installed] at htakes
  obtain ⟨heap, -, -, ⟨scope, hrun, hlive⟩ | ⟨hrun, hroom⟩⟩ := htakes
  · have hcount : heap.live = 2 + 4 * options.nativeCount := by omega
    have hmade := hvalid.create_eq hcreate hrun
    have hnot : ¬ options.BoundsBelow (2 + 4 * options.nativeCount) := by
      rw [hvalid.boundsBelow_iff]
      rintro ⟨limit, hlimit, hlt⟩
      have hle := live_le_of_rootScope hcreate hrun hlimit
      omega
    refine ⟨iff_of_false ?_ hnot, fun _ => ⟨_, heap, hmade,
      Options.makes_of_rootScope _ hcreate hrun hcount⟩⟩
    rintro ⟨fault, hfault, -⟩
    cases hmade.symm.trans hfault
  · have hbelow : options.BoundsBelow (2 + 4 * options.nativeCount) := by
      rw [hvalid.boundsBelow_iff, ← (create_within hcreate).maxSlots_eq]
      by_contra hnone
      refine hroom fun limit hlimit => ?_
      have hle := not_lt.mp fun hlt => hnone ⟨limit, hlimit, hlt⟩
      omega
    exact ⟨iff_of_true ⟨_, hvalid.create_eq hcreate hrun, rfl⟩ hbelow,
      fun hnot => absurd hbelow hnot⟩

/-- With a bound of 54 slots there is just room for the built-in natives and a `list` of the host, and
that is the one that is found. -/
theorem creation_is_exact_shadowing : ∃ (ctx : Context) (heap : Heap (Action Unit)),
    Context.create 0 ⟨none, none, some (Number.ofNat 54), true,
      [(text "list", ⟨text "list", .custom ()⟩)]⟩ = .ok (ctx, heap) ∧ heap.live = 54 ∧
      heap.Finds ctx.scope (text "list") (some ⟨text "list", .custom ()⟩) ∧
      heap.Finds ctx.scope (text "cons") (some ⟨text "cons", .builtin .cons⟩) ∧
      heap.Finds ctx.scope (text "rect") none := by
  have hcount : Number.IsCount (Number.ofNat 54) 54 :=
    ⟨by decide +kernel, by decide +kernel, by decide +kernel⟩
  generalize Number.ofNat 54 = maxSlots at *
  have hvalid : Options.IsValid (χ := Unit) ⟨none, none, some maxSlots, true,
      [(text "list", ⟨text "list", .custom ()⟩)]⟩ := by
    refine ⟨nofun, nofun, fun n hn => ?_⟩
    cases hn
    exact ⟨54, by decide, hcount⟩
  have hfits : ¬ Options.BoundsBelow (χ := Unit) ⟨none, none, some maxSlots, true,
      [(text "list", ⟨text "list", .custom ()⟩)]⟩ 54 := by
    rintro ⟨maxSlots, k, hslots, hk, hlt⟩
    cases hslots
    have hwhole := hk.wholePart_eq.symm.trans hcount.wholePart_eq
    omega
  obtain ⟨ctx, heap, hcreate, hmakes⟩ := (creation_is_exact 0 _ hvalid).2 hfits
  exact ⟨ctx, heap, hcreate, hmakes.live_eq, hmakes.finds (text "list"),
    hmakes.finds (text "cons"), hmakes.finds (text "rect")⟩

end ConsoleLisp
