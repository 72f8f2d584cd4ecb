import ConsoleLisp.Proofs.Datum.Reading
import ConsoleLisp.Proofs.Document.Judgement
import ConsoleLisp.Proofs.Evaluation.Dispatch
import ConsoleLisp.Proofs.Memory.Installation
import ConsoleLisp.Proofs.Native.Qualified
import ConsoleLisp.Proofs.Scope.Prepended
import ConsoleLisp.Proofs.Scope.Seek

/-!
# Calling the natives of a namespace

Natives that are installed in a scope are bound in front of its frame, the last of them first, and
whatever the scope looked like before, each name finds its native. A form with a symbol of the name
for its head then runs the action of the native on the rest of the form, as it stands.

Results:
* `Fronts.trans`, `bindNative_fronts`, **`install_fronts`**: what natives put in front of a frame.
* **`finds_of_install`**: what a name finds afterwards.
* `Finds.formCalls`: a form whose head finds a native.
* `isForm_of_read`: a form that is read from a text.
* **`qualified_natives_are_called`**: what a namespace does to a set of natives, and that each of
  them is called by its new name.
-/

namespace ConsoleLisp

/-! ## Tokens of a form -/

section Tokens

variable {β : Type} {room : Nat} {opening atom : Token} {tokens : List Token} {t : Tree β}

/-- A datum that begins with an atom is this atom. -/
theorem Derives.eq_symbol (h : Derives room (atom :: tokens) t) (hkind : atom.kind = .atom)
    (hliteral : isNumberLiteral atom.value = false) : t = .symbol atom.value := by
  generalize htokens : atom :: tokens = all at h
  cases h with
  | symbol => cases htokens; rfl
  | @number _ token literal _ hparse =>
    cases htokens
    cases hliteral.symm.trans (Literal.isNumberLiteral_of_parse? hparse)
  | string hother | quotation hother _ | list hother _ _ =>
    cases htokens
    cases hkind.symm.trans hother

/-- A datum that begins with an opening bracket and an atom is a list with this atom for its first
item. -/
theorem Derives.eq_form (h : Derives room tokens t) {behind : List (Except LexicalError Token)}
    (hbegins : tokens.map .ok <+: .ok opening :: .ok atom :: behind)
    (hopening : opening.kind = .openList) (hkind : atom.kind = .atom)
    (hliteral : isNumberLiteral atom.value = false) :
    ∃ items, t = .pair (.symbol atom.value) (.ofList items) := by
  have hfirst : ∀ {token : Token} {rest : List Token}, tokens = token :: rest →
      token.kind = .openList ∧ rest.map .ok <+: .ok atom :: behind := by
    rintro token rest rfl
    obtain ⟨heq, hrest⟩ := List.cons_prefix_cons.mp hbegins
    cases heq
    exact ⟨hopening, hrest⟩
  cases h with
  | string hother | number hother _ | symbol hother _ | quotation hother _ =>
    cases (hfirst rfl).1.symm.trans hother
  | @list _ _ closing inner items _ hclosing hitems =>
    obtain ⟨-, hrest⟩ := hfirst rfl
    cases hitems with
    | nil =>
      cases (List.cons_prefix_cons.mp hrest).1
      cases hkind.symm.trans hclosing
    | @cons _ first rest item others hitem _ =>
      obtain ⟨token, first, rfl⟩ := List.exists_cons_of_ne_nil hitem.ne_nil
      cases (List.cons_prefix_cons.mp hrest).1
      exact ⟨others, congrArg (Tree.pair · _) (hitem.eq_symbol hkind hliteral)⟩

end Tokens

namespace Heap

variable {κ : Type} {heap heap' heap'' : Heap κ} {scope : Scope} {root : Handle} {name : Text}
  {native : Native κ} {natives more : NativeSet κ} {sets sets' : List (Handle × Handle)}
  {new old older : Handle}

/-! ## What is in front of a frame -/

theorem Prepended.append (h : Prepended heap root sets new old)
    (h' : Prepended heap root sets' old older) : Prepended heap root (sets ++ sets') new older := by
  induction h with
  | nil => exact h'
  | cons hfront hbinding hsymbol hvalue _ ih => exact .cons hfront hbinding hsymbol hvalue (ih h')

/-- A symbol with the name of an entry, and its native. -/
structure Carries (heap : Heap κ) (n : Text × Native κ) (binding : Handle × Handle) : Prop where
  symbol_eq : heap.cell? binding.1 = some (.symbol n.1)
  native_eq : heap.cell? binding.2 = some (.native n.2)

/-- The later heap has all cells as they were, except that the frame of the scope has bindings of
these natives, the newest first, before those that it had. -/
structure Fronts (heap : Heap κ) (scope : Scope) (natives : NativeSet κ) (heap' : Heap κ) :
    Prop where
  wellFormed : heap'.WellFormed
  grows : Grows scope.chain heap heap'
  frame : ∃ old new parent sets, heap.cell? scope.chain = some (.pair old parent) ∧
    heap'.cell? scope.chain = some (.pair new parent) ∧ Prepended heap' scope.chain sets new old ∧
    List.Forall₂ heap'.Carries natives sets

theorem Carries.grow {n : Text × Native κ} {binding : Handle × Handle} {frame parent : Handle}
    (h : heap.Carries n binding) (hg : Grows root heap heap')
    (hroot : heap.cell? root = some (.pair frame parent)) : heap'.Carries n binding := by
  have hne : ∀ e c, heap.cell? e = some c → c.pair? = none → e ≠ root := by
    rintro e c hc hnone rfl
    cases hc.symm.trans hroot
    cases hnone
  exact ⟨hg.cell?_mono _ _ (hne _ _ h.symbol_eq rfl) h.symbol_eq,
    hg.cell?_mono _ _ (hne _ _ h.native_eq rfl) h.native_eq⟩

/-- Natives in front of others. -/
theorem Fronts.trans (h : heap.Fronts scope natives heap')
    (h' : heap'.Fronts scope more heap'') : heap.Fronts scope (more ++ natives) heap'' := by
  obtain ⟨older, old, parent, sets, hchain, hchain', hprepended, hcarries⟩ := h.frame
  obtain ⟨old', new, parent', sets', hold, hnew, hprepended', hcarries'⟩ := h'.frame
  cases hchain'.symm.trans hold
  have hlive := isLive_of_cell? hnew
  exact ⟨h'.wellFormed, h.grows.trans h'.grows, older, new, parent, sets' ++ sets, hchain, hnew,
    hprepended'.append (hprepended.grow h'.grows hchain' hlive),
    List.rel_append hcarries' (hcarries.imp fun _ _ hc => hc.grow h'.grows hchain')⟩

/-- **A native that is bound** is in front. -/
theorem bindNative_fronts (w : heap.WellFormed)
    (hrun : NativeSet.bindNative scope name native heap = (.ok (), heap')) :
    heap.Fronts scope [(name, native)] heap' := by
  obtain ⟨symbol, heap₁, hrun₁, hrun⟩ := Act.exists_of_run_bind hrun
  obtain ⟨w₁, hu₁, hnew₁⟩ := allocate_of_ok w (partsLive_atom rfl) hrun₁
  obtain ⟨value, heap₂, hrun₂, hbind⟩ := Act.exists_of_run_bind hrun
  obtain ⟨w₂, hu₂, hnew₂⟩ := allocate_of_ok w₁ (partsLive_atom rfl) hrun₂
  have hext := (hu₁.extends hnew₁).trans (hu₂.extends hnew₂)
  have hs : heap₂.cell? symbol = some (.symbol name) :=
    (hu₂.extends hnew₂).cell?_mono _ _ ((hu₁.cell?_eq symbol).trans (if_pos rfl))
  have hv : heap₂.cell? value = some (.native native) := (hu₂.cell?_eq value).trans (if_pos rfl)
  -- the scope is a pair, for otherwise nothing is bound, and it is none of the two new cells
  obtain ⟨frame, parent, hchain₂⟩ : ∃ frame parent,
      heap₂.cell? scope.chain = some (.pair frame parent) := by
    rcases bind_cases heap₂ scope symbol value with ⟨fault, hfault⟩ | ⟨_, frame, parent, -, hc, -⟩
    · cases hfault.symm.trans hbind
    · exact ⟨frame, parent, hc⟩
  have hchain : heap.cell? scope.chain = some (.pair frame parent) := by
    have hc := hchain₂
    rw [hu₂.cell?_eq] at hc
    split at hc
    · cases hc
    · rw [hu₁.cell?_eq] at hc
      split at hc
      · cases hc
      · exact hc
  obtain ⟨heap₃, hg, ⟨hfault, -⟩ | ⟨hok, honly⟩⟩ :=
    (OnlyAdds.refl w₂ hchain₂).bind hs (isLive_of_cell? hv)
  · cases hfault.symm.trans hbind
  · cases hok.symm.trans hbind
    obtain ⟨old, new, parent', hold, hnew, hprepended⟩ := honly.frame
    cases hold.symm.trans hchain₂
    exact ⟨honly.wellFormed, (hext.grows _).trans hg, frame, new, parent, _, hchain, hnew,
      hprepended, .cons (Carries.grow ⟨hs, hv⟩ hg hchain₂) .nil⟩

/-- **Natives that are installed** are in front, the last of them first. By induction on the
natives. -/
theorem install_fronts (w : heap.WellFormed) (hne : natives ≠ [])
    (hrun : natives.install scope heap = (.ok (), heap')) :
    heap.Fronts scope natives.reverse heap' := by
  induction natives generalizing heap with
  | nil => exact absurd rfl hne
  | cons n rest ih =>
    obtain ⟨_, heap₁, hbind, hrun⟩ := Act.exists_of_run_bind hrun
    have hfirst := bindNative_fronts w hbind
    rw [List.reverse_cons]
    cases rest with
    | nil =>
      cases hrun
      exact hfirst
    | cons next rest => exact hfirst.trans (ih hfirst.wellFormed (List.cons_ne_nil _ _) hrun)

/-! ## What a name finds -/

theorem boundTo_eq {binding symbol value : Handle} {other : Text}
    (h : heap.cell? binding = some (.pair symbol value))
    (hs : heap.cell? symbol = some (.symbol other)) (name : Text) :
    heap.boundTo name binding = .ok (if other = name then some value else none) := by
  simp only [boundTo, IsFrame.binding?_eq h hs, bind, Except.bind]
  rfl

/-- Among bindings in front of a frame the first of a name is found. -/
theorem Prepended.seeks (h : Prepended heap root sets new old)
    (hcarries : List.Forall₂ heap.Carries natives sets)
    (hget : Keyed.get? name natives = some native) :
    ∃ value n, Seeks heap (heap.boundTo name) value n new ∧
      heap.cell? value = some (.native native) := by
  induction h generalizing natives with
  | nil =>
    cases hcarries
    cases hget
  | cons hfront hbinding hsymbol _ _ ih =>
    cases hcarries with
    | @cons n _ rest _ hfirst hrest =>
      obtain ⟨other, procedure⟩ := n
      have hc := cell?_of_visible _ _ hfront
      have hbound := boundTo_eq (cell?_of_visible _ _ hbinding) hfirst.symbol_eq name
      rw [Keyed.get?_cons] at hget
      by_cases hother : other = name
      · rw [if_pos hother] at hget hbound
        cases hget
        exact ⟨_, 0, .here hc hbound, hfirst.native_eq⟩
      · rw [if_neg hother] at hget hbound
        obtain ⟨value, k, hseeks, hvalue⟩ := ih hrest hget
        exact ⟨value, k + 1, .there hc hbound hseeks, hvalue⟩

theorem Fronts.finds (h : heap.Fronts scope natives heap')
    (hget : Keyed.get? name natives = some native) : heap'.Finds scope name (some native) := by
  obtain ⟨_, new, parent, sets, -, hchain, hprepended, hcarries⟩ := h.frame
  obtain ⟨value, n, hseeks, hvalue⟩ := hprepended.seeks hcarries hget
  have hframe : heap'.lookupFrame name (heap'.slots.size + 1) new = .ok (some value) := by
    rw [lookupFrame_eq_seek]
    exact seek_size_eq_some_iff.mpr ⟨n, hseeks⟩
  refine ⟨value, ?_, inspect_eq_ok_iff.mpr hvalue⟩
  rw [lookupName, lookupChain_eq_seek]
  exact seek_size_eq_some_iff.mpr ⟨0, .here hchain hframe⟩

/-- **Every name of natives with distinct names** finds its native when they have been installed, and
also when cells have been added after that. -/
theorem finds_of_install (w : heap.WellFormed) (hkeys : (natives.map Prod.fst).Nodup)
    (hrun : natives.install scope heap = (.ok (), heap')) (hmem : (name, native) ∈ natives)
    (hext : Extends heap' heap'') (w'' : heap''.WellFormed) :
    heap''.Finds scope name (some native) := by
  have hfronts := install_fronts w (List.ne_nil_of_mem hmem) hrun
  have hget : Keyed.get? name natives.reverse = some native := by
    rw [Keyed.get?_reverse hkeys]
    exact (Keyed.get?_eq_some_iff hkeys).mpr hmem
  obtain ⟨value, hlookup, hvalue⟩ := hfronts.finds hget
  obtain ⟨_, new, parent, _, -, hchain, -⟩ := hfronts.frame
  have hnew : ¬ IsNew heap' heap'' scope.chain := fun h =>
    Bool.false_ne_true (h.1.symm.trans (isLive_of_cell? hchain))
  refine ⟨value, ?_, inspect_eq_ok_iff.mpr
    (hext.cell?_mono _ _ (inspect_eq_ok_iff.mp hvalue))⟩
  rw [hext.lookupName_eq hfronts.wellFormed w'' hnew]
  exact hlookup

/-! ## Forms -/

/-- The form has a symbol of this name for its head, and these arguments behind it. -/
def IsForm (heap : Heap κ) (form : Handle) (name : Text) (args : Handle) : Prop :=
  ∃ head, heap.cell? form = some (.pair head args) ∧ heap.cell? head = some (.symbol name)

/-- In the scope the form calls the native on the arguments as they stand: whenever the limits admit
the application, evaluating the form is that call, one application deeper. -/
def FormCalls (heap : Heap κ) (scope : Scope) (form : Handle) (native : Native κ) (args : Handle) :
    Prop :=
  ∀ {ω ν : Type} (host : Host κ ω ν) (limits : Limits) (fuel : Nat) (m m' : Machine κ ω ν)
    (result : Except Fault Outcome), m.store.heap = heap →
    limits.depth.any (· ≤ m.depth) = false → limits.steps.any (· < m.steps + 1) = false →
    callNative host (evaluateWith host limits (fuel + 1)) native scope args
      ⟨m.store.note host (.application form m.depth .admitted), m.steps + 1, m.depth + 1⟩ =
        (result, m') →
    evaluateWith host limits (fuel + 2) scope form m = (result, { m' with depth := m'.depth - 1 })

section Evaluation

variable {ω ν : Type} {host : Host κ ω ν} {limits : Limits} {m : Machine κ ω ν} {head value : Handle}

/-- A symbol that is bound has the value that it is bound to. -/
theorem evaluateWith_symbol (fuel : Nat) (hhead : m.store.heap.cell? head = some (.symbol name))
    (hlookup : m.store.heap.lookupName scope name = .ok (some value)) :
    evaluateWith host limits (fuel + 1) scope head m = (.ok (.ok value), m) := by
  rw [evaluateWith, Act.run_bind_ok (Session.run_look (inspect_eq_ok_iff.mpr hhead))]
  refine (Act.run_bind_ok (Session.run_look hlookup)).trans ?_
  rfl

/-- **A form whose head finds a native** calls it. -/
theorem Finds.formCalls (hfinds : heap.Finds scope name (some native)) {form args : Handle}
    (hform : heap.IsForm form name args) : heap.FormCalls scope form native args := by
  intro ω ν host limits fuel m m' result hheap hdepth hsteps hcall
  subst hheap
  obtain ⟨head, hc, hhead⟩ := hform
  obtain ⟨value, hlookup, hnative⟩ := hfinds
  rw [evaluateWith, Act.run_bind_ok (Session.run_look (inspect_eq_ok_iff.mpr hc))]
  refine dispatch_of_admitted hdepth hsteps ?_
  -- a note leaves the heap as it is
  generalize hm₁ : Machine.mk (m.store.note host (.application form m.depth .admitted)) (m.steps + 1)
    (m.depth + 1) = m₁ at hcall ⊢
  have hheap : m₁.store.heap = m.store.heap := by rw [← hm₁]; rfl
  rw [← hheap] at hhead hlookup hnative
  have hkind : m₁.store.heap.kindOf head = .ok .symbol := by
    rw [kindOf, inspect_eq_ok_iff.mpr hhead]
    rfl
  have hoperator : operatorOf (evaluateWith host limits (fuel + 1)) scope head m₁ =
      (.ok (.ok value), m₁) := by
    rw [operatorOf, Act.run_bind_ok (Session.run_look hkind)]
    exact evaluateWith_symbol fuel hhead hlookup
  have hinspect : (Session.look (·.inspect value) : Session κ ω ν (Cell κ)) m₁ =
      (.ok (.native native), m₁) := Session.run_look hnative
  rw [applyForm, Act.run_bind_ok hoperator]
  exact (Act.run_bind_ok hinspect).trans hcall

end Evaluation

/-- **A form that is read.** An opening bracket, a name and whatever ends the name are read as a form
with the name for its head, if at all. -/
theorem isForm_of_read (w : heap.WellFormed) (hname : IsName name) {rest : Text}
    (hrest : Text.IsBounded rest) {form : Handle} {stop : Nat}
    (h : read (unit '(' :: (name ++ rest)) heap = (.ok (.ok (form, stop)), heap')) :
    heap'.WellFormed ∧ Extends heap heap' ∧ ∃ args, heap'.IsForm form name args := by
  obtain ⟨tokens, t, -, hbegins, hderives, -, hform, -⟩ := derives_of_read w h
  obtain ⟨d, hdatum⟩ := readDatum_of_read h
  obtain ⟨w', hext, -, -⟩ := (read_allocates hdatum w).of_ok h
  obtain ⟨lexemes, hlexemes, htokens⟩ := (lexes_open (name ++ rest) Location.start).append
    (lexes_atom hname.1 hname.2.1 hrest (Location.start.after [unit '(']))
  have hscan : (scan (unit '(' :: (name ++ rest))).map Lexeme.token = _ :=
    (congrArg (List.map Lexeme.token) hlexemes).trans List.map_append
  rw [BeginsWith, hscan, htokens] at hbegins
  obtain ⟨items, rfl⟩ := hderives.eq_form hbegins rfl rfl hname.2.2
  cases hform with
  | atom _ hatom => cases hatom
  | pair hc hhead _ =>
    cases hhead with
    | atom hsymbol hatom =>
      cases hatom
      exact ⟨w', hext, _, _, hc, hsymbol⟩

end Heap

/-! ## Natives of a namespace -/

open Heap NativeSet

/-- **A namespace keeps natives what they are.** Each native of the set has its name within the
namespace and its own action, in the order of the set, which the assignments that fill a new set keep.
One namespace on top of another is the namespace that their names make. A name that is read as a
symbol is read as one within the namespace; and when the natives have been installed, a form with such
a name for its head calls the native on the rest of the form. -/
theorem qualified_natives_are_called {κ : Type} {space : Text} {natives qualified : NativeSet κ}
    (hkeys : (natives.map Prod.fst).Nodup) (h : qualify space natives = .ok qualified) :
    List.Forall₂ (fun n q => q.1 = qualifiedName space n.1 ∧ q.2.name = q.1 ∧
      q.2.action = n.2.action) natives qualified ∧
    (qualified.map Prod.fst).Nodup ∧ Keyed.ofList qualified = qualified ∧
    (∀ outer twice, qualify outer qualified = .ok twice →
      qualify (qualifiedName outer space) natives = .ok twice) ∧
    (∀ n ∈ natives, ReadsAsSymbol n.1 → ReadsAsSymbol (qualifiedName space n.1)) ∧
    ∀ (heap heap' : Heap κ) (scope : Scope), heap.WellFormed →
      qualified.install scope heap = (.ok (), heap') → ∀ n ∈ natives,
      (∀ heap'' form args, Extends heap' heap'' → heap''.WellFormed →
        heap''.IsForm form (qualifiedName space n.1) args →
        heap''.FormCalls scope form ⟨qualifiedName space n.1, n.2.action⟩ args) ∧
      (ReadsAsSymbol n.1 → ∀ rest form stop heap'', Text.IsBounded rest →
        read (unit '(' :: (qualifiedName space n.1 ++ rest)) heap' =
          (.ok (.ok (form, stop)), heap'') →
        ∃ args, heap''.IsForm form (qualifiedName space n.1) args ∧
          heap''.FormCalls scope form ⟨qualifiedName space n.1, n.2.action⟩ args) := by
  obtain ⟨hspace, rfl⟩ := qualify_eq_ok_iff.mp h
  have hkeys' := nodup_qualified space hkeys
  refine ⟨?_, hkeys', ofList_qualified space hkeys, fun outer twice htwice => ?_,
    fun n _ hn => readsAsSymbol_qualifiedName hspace hn, fun heap heap' scope w hrun n hn => ?_⟩
  · exact List.forall₂_map_right_iff.mpr (List.forall₂_same.mpr fun n _ => ⟨rfl, rfl, rfl⟩)
  · obtain ⟨houter, rfl⟩ := qualify_eq_ok_iff.mp htwice
    exact qualify_eq_ok_iff.mpr ⟨houter.qualifiedName hspace, qualified_qualified outer space natives⟩
  · have hcalls : ∀ heap'' form args, Extends heap' heap'' → heap''.WellFormed →
        heap''.IsForm form (qualifiedName space n.1) args →
        heap''.FormCalls scope form ⟨qualifiedName space n.1, n.2.action⟩ args :=
      fun _ _ _ hext w'' hform =>
        (finds_of_install w hkeys' hrun (List.mem_map_of_mem hn) hext w'').formCalls hform
    refine ⟨hcalls, fun hsymbol rest form stop heap'' hrest hread => ?_⟩
    have hname := isName_qualifiedName hspace (readsAsSymbol_iff.mp hsymbol)
    have w' := (install_fronts w (List.ne_nil_of_mem (List.mem_map_of_mem hn)) hrun).wellFormed
    obtain ⟨w'', hext, args, hform⟩ := isForm_of_read w' hname hrest hread
    exact ⟨args, hform, hcalls _ _ _ hext w'' hform⟩

/-- The namespace `1e` and the name `5x`: what they make is no number. A form with it for its head,
read where the native has been installed in an empty scope, calls the native. -/
theorem qualified_natives_are_called_exponent : ∃ (past : List (Exchange Unit))
    (heap heap' heap'' : Heap Unit) (args : Handle), Run 1 Number.infinity past heap ∧
    qualify (text "1e") [(text "5x", (⟨text "5x", ()⟩ : Native Unit))] =
      .ok [(text "1e-5x", ⟨text "1e-5x", ()⟩)] ∧ ReadsAsSymbol (text "1e-5x") ∧
    NativeSet.install ⟨⟨1, 1, 0⟩⟩ [(text "1e-5x", ⟨text "1e-5x", ()⟩)] heap = (.ok (), heap') ∧
    Heap.read (text "(1e-5x)") heap' = (.ok (.ok (⟨1, 7, 0⟩, 7)), heap'') ∧
    heap''.IsForm ⟨1, 7, 0⟩ (text "1e-5x") args ∧
    heap''.FormCalls ⟨⟨1, 1, 0⟩⟩ ⟨1, 7, 0⟩ ⟨text "1e-5x", ()⟩ args := by
  let qualified : NativeSet Unit := [(text "1e-5x", ⟨text "1e-5x", ()⟩)]
  let start : Heap Unit := (performAll [.pair ⟨1, 0, 0⟩ ⟨1, 0, 0⟩]
    ([], ⟨1, Number.infinity, #[⟨0, some .nil, some ⟨1, 0, 0⟩⟩], [], 1, false⟩)).2
  have hrun : Run 1 Number.infinity _ start := (Run.created (create_unbounded 1)).performAll _
  have hqualify : qualify (text "1e") [(text "5x", ⟨text "5x", ()⟩)] = .ok qualified := by
    decide +kernel
  have hsymbol : ReadsAsSymbol (text "5x") := by
    unfold ReadsAsSymbol
    decide +kernel
  have hname : qualifiedName (text "1e") (text "5x") = text "1e-5x" := by decide +kernel
  obtain ⟨made, hmade⟩ : ∃ made, made = (qualified.install ⟨⟨1, 1, 0⟩⟩ start).2 := ⟨_, rfl⟩
  have hdone : (qualified.install ⟨⟨1, 1, 0⟩⟩ start).1 = .ok () := by decide +kernel
  have hread : (Heap.read (text "(1e-5x)") made).1 = .ok (.ok (⟨1, 7, 0⟩, 7)) := by
    rw [hmade]
    decide +kernel
  have hinstall : qualified.install ⟨⟨1, 1, 0⟩⟩ start = (.ok (), made) :=
    Prod.ext hdone hmade.symm
  obtain ⟨-, -, -, -, hreads, hcalls⟩ := qualified_natives_are_called (by decide +kernel) hqualify
  have hqualified := hreads _ (List.mem_singleton.mpr rfl) hsymbol
  rw [hname] at hqualified
  obtain ⟨args, hform, hcall⟩ := (hcalls start made _ (hrun.wellFormed.2 rfl) hinstall _
    (List.mem_singleton.mpr rfl)).2 hsymbol (text ")") _ _ _ (Tree.isBounded_close [])
    (Prod.ext hread rfl)
  exact ⟨_, start, made, _, args, hrun, hqualify, hqualified, hinstall, Prod.ext hread rfl, hform,
    hcall⟩

end ConsoleLisp
