import ConsoleLisp.Native.Set
import ConsoleLisp.Proofs.Datum.Atom
import ConsoleLisp.Proofs.Number.Literal
import ConsoleLisp.Proofs.Value.Reread

/-!
# Names within a namespace

A namespace and a hyphen go in front of every name of a set of natives. The new names are no array
indices and stay distinct, so a set that is filled entry by entry keeps the order; and they are read
as symbols where the old ones are, for a hyphen inside a number literal is the sign of its exponent
and has digits only behind it, which are a number literal without what stands in front of them.

Results:
* `Keyed.ofList_eq_self`: assignments to distinct keys that are no array indices, one after another.
* `NativeSet.qualify_eq_ok_iff`, `NativeSet.qualified_qualified`: what a namespace does to a set, and
  one namespace on top of another.
* **`Literal.all_isDigit_of_hyphen`**: what is behind a hyphen inside a number literal.
* `readsAsSymbol_iff`: which texts are read as a symbol.
* **`readsAsSymbol_qualifiedName`**: names that are symbols, within a namespace.
-/

namespace ConsoleLisp

/-! ## Keyed entries -/

namespace Keyed

variable {α : Type} {entries assignments : Keyed α} {key : Text}

theorem put_of_notMem (h : key ∉ entries.map Prod.fst) (a : α) :
    entries.put key a = entries ++ [(key, a)] := by
  induction entries with
  | nil => rfl
  | cons entry rest ih =>
    rw [List.map_cons, List.mem_cons, not_or] at h
    rw [put, if_neg (Ne.symm h.1), ih h.2, List.cons_append]

theorem foldl_put (h : ((entries ++ assignments).map Prod.fst).Nodup) :
    assignments.foldl (fun entries entry => entries.put entry.1 entry.2) entries =
      entries ++ assignments := by
  induction assignments generalizing entries with
  | nil => rw [List.append_nil]; rfl
  | cons entry rest ih =>
    have hnew : entry.1 ∉ entries.map Prod.fst := by
      rw [List.map_append, List.map_cons] at h
      exact fun hmem => List.disjoint_of_nodup_append h hmem List.mem_cons_self
    rw [List.append_cons] at h ⊢
    rw [List.foldl_cons, put_of_notMem hnew, ih h]

/-- **Assignments one after another** to distinct keys, none of them an array index, are kept as they
are. -/
theorem ofList_eq_self (hkeys : (entries.map Prod.fst).Nodup)
    (hindex : ∀ entry ∈ entries, indexKey? entry.1 = none) : ofList entries = entries := by
  rw [ofList, foldl_put (by simpa using hkeys), List.nil_append, inOrder,
    List.filter_eq_nil_iff.mpr (by simpa using hindex),
    List.filter_eq_self.mpr (by simpa using hindex), List.mergeSort_nil, List.nil_append]

end Keyed

/-- A text with a unit that is no digit is no array index. -/
theorem indexKey?_eq_none {key : Text} {u : CodeUnit} (hu : u ∈ key) (hdigit : u.isDigit = false) :
    indexKey? key = none := by
  refine if_neg fun h => ?_
  rw [h.1] at hu
  rw [isDigit_of_mem_decimal hu] at hdigit
  cases hdigit

/-! ## Sets within a namespace -/

namespace NativeSet

variable {κ : Type} {space outer name : Text} {natives qualified : NativeSet κ}

/-- A non-empty text of letters, digits and hyphens. -/
def IsNamespace (space : Text) : Prop := space ≠ [] ∧ ∀ u ∈ space, isNamespaceUnit u = true

/-- A native under its name within a namespace. -/
def qualifiedEntry (space : Text) (n : Text × Native κ) : Text × Native κ :=
  (qualifiedName space n.1, ⟨qualifiedName space n.1, n.2.action⟩)

theorem qualify_eq_ok_iff : qualify space natives = .ok qualified ↔
    IsNamespace space ∧ qualified = natives.map (qualifiedEntry space) := by
  have hspace : space ≠ [] ∧ space.all isNamespaceUnit = true ↔ IsNamespace space := by
    rw [List.all_eq_true]
    rfl
  by_cases h : IsNamespace space
  · rw [qualify, if_pos (hspace.mpr h), Except.ok.injEq]
    exact ⟨fun heq => ⟨h, heq.symm⟩, fun heq => heq.2.symm⟩
  · rw [qualify, if_neg (mt hspace.mp h)]
    exact iff_of_false nofun fun hok => h hok.1

theorem qualifiedName_injective (space : Text) : Function.Injective (qualifiedName space) :=
  fun _ _ h => (List.cons.inj (List.append_cancel_left h)).2

theorem nodup_qualified (space : Text) (h : (natives.map Prod.fst).Nodup) :
    ((natives.map (qualifiedEntry space)).map Prod.fst).Nodup := by
  have hkeys : (natives.map (qualifiedEntry space)).map Prod.fst =
      (natives.map Prod.fst).map (qualifiedName space) := by
    rw [List.map_map, List.map_map]
    rfl
  rw [hkeys]
  exact h.map (qualifiedName_injective space)

/-- **The new names keep the order.** -/
theorem ofList_qualified (space : Text) (h : (natives.map Prod.fst).Nodup) :
    Keyed.ofList (natives.map (qualifiedEntry space)) = natives.map (qualifiedEntry space) := by
  refine Keyed.ofList_eq_self (nodup_qualified space h) fun entry hentry => ?_
  obtain ⟨n, -, rfl⟩ := List.mem_map.mp hentry
  have hmem : unit '-' ∈ qualifiedName space n.1 := by simp [qualifiedName]
  exact indexKey?_eq_none hmem (by decide)

theorem qualifiedName_qualifiedName (outer space name : Text) :
    qualifiedName outer (qualifiedName space name) =
      qualifiedName (qualifiedName outer space) name := by
  simp [qualifiedName]

theorem IsNamespace.qualifiedName (houter : IsNamespace outer) (hspace : IsNamespace space) :
    IsNamespace (qualifiedName outer space) := by
  refine ⟨by simp [NativeSet.qualifiedName], fun u hu => ?_⟩
  rcases List.mem_append.mp hu with hu | hu
  · exact houter.2 u hu
  · rcases List.mem_cons.mp hu with rfl | hu
    · decide
    · exact hspace.2 u hu

/-- **A namespace on top of another** is the namespace that the two names make. -/
theorem qualified_qualified (outer space : Text) (natives : NativeSet κ) :
    (natives.map (qualifiedEntry space)).map (qualifiedEntry outer) =
      natives.map (qualifiedEntry (qualifiedName outer space)) := by
  rw [List.map_map]
  refine List.map_congr_left fun n _ => ?_
  simp only [Function.comp_apply, qualifiedEntry, qualifiedName_qualifiedName]

theorem not_delimiter_of_isNamespaceUnit {u : CodeUnit} (h : isNamespaceUnit u = true) :
    isDelimiter u = false := by
  by_contra hu
  simp only [isDelimiter, isSpace, Bool.not_eq_false, Bool.or_eq_true, beq_iff_eq] at hu
  rcases hu with ((((((((rfl | rfl) | rfl) | rfl) | rfl) | rfl) | rfl) | rfl) | rfl) <;>
    exact absurd h (by decide)

end NativeSet

/-! ## Hyphens in number literals -/

namespace Literal

variable {t after : Text}

/-- **A hyphen inside a number literal** is the sign of its exponent: digits only are behind it. -/
theorem all_isDigit_of_hyphen {before : Text} (hne : before ≠ [])
    (h : isNumberLiteral (before ++ unit '-' :: after) = true) : IsDigits after := by
  obtain ⟨l, hl⟩ := isNumberLiteral_iff.mp h
  exact ((hl.sign_place (.inl rfl)).resolve_left hne).2

/-- Digits are a number literal. -/
theorem isNumberLiteral_of_isDigits (h : IsDigits t) : isNumberLiteral t = true := by
  have hwritten : IsWrittenAs ⟨false, t, [], 0⟩ ([] ++ (t ++ [])) :=
    .intro .absent (.whole h) .absent
  rw [List.nil_append, List.append_nil] at hwritten
  exact isNumberLiteral_iff.mpr ⟨_, hwritten⟩

end Literal

/-! ## Symbols -/

/-- The text alone is read as one symbol, the one with this text for its name. -/
def ReadsAsSymbol (t : Text) : Prop := readDatum t = .ok (.symbol t, t.length)

/-- The tokens of a symbol are one atom. -/
theorem Derives.exists_atom {β : Type} {room : Nat} {tokens : List Token} {name : Text}
    (h : Derives room tokens (.symbol name : Tree β)) :
    ∃ token, tokens = [token] ∧ token.value = name ∧ token.kind = .atom ∧
      isNumberLiteral name = false := by
  generalize ht : (Tree.symbol name : Tree β) = t at h
  cases h with
  | symbol hkind hliteral =>
    cases ht
    exact ⟨_, rfl, rfl, hkind, hliteral⟩
  | @list _ _ _ _ items => cases items <;> cases ht
  | string | number | quotation => cases ht

theorem isName_of_readDatum {t name : Text} {stop : Nat}
    (h : readDatum t = .ok (.symbol name, stop)) : IsName name := by
  obtain ⟨tokens, hbegins, -, hderives, -⟩ := derives_of_readDatum (β := Empty) h
  obtain ⟨token, rfl, rfl, hatom, hliteral⟩ := hderives.exists_atom
  obtain ⟨lexeme, hmem, htoken⟩ := List.mem_map.mp (hbegins.subset List.mem_cons_self)
  obtain ⟨hne, hunits⟩ := atom_of_mem_lexemes hmem htoken hatom
  exact ⟨hne, hunits, hliteral⟩

/-- **The texts that are read as symbols** are the names. -/
theorem readsAsSymbol_iff {t : Text} : ReadsAsSymbol t ↔ IsName t := by
  refine ⟨isName_of_readDatum, fun h => ?_⟩
  rw [ReadsAsSymbol, readDatum_atom h.1 h.2.1, Datum.ofAtom_of_not_literal h.2.2]

namespace NativeSet

variable {space name : Text}

/-- **A name that is a symbol** is one within a namespace. -/
theorem isName_qualifiedName (hspace : IsNamespace space) (h : IsName name) :
    IsName (qualifiedName space name) := by
  refine ⟨by simp [qualifiedName], fun u hu => ?_, ?_⟩
  · rcases List.mem_append.mp hu with hu | hu
    · exact not_delimiter_of_isNamespaceUnit (hspace.2 u hu)
    · rcases List.mem_cons.mp hu with rfl | hu
      · decide
      · exact h.2.1 u hu
  · rw [Bool.eq_false_iff]
    intro hliteral
    have hdigits := Literal.all_isDigit_of_hyphen hspace.1 hliteral
    cases h.2.2.symm.trans (Literal.isNumberLiteral_of_isDigits hdigits)

theorem readsAsSymbol_qualifiedName (hspace : IsNamespace space) (h : ReadsAsSymbol name) :
    ReadsAsSymbol (qualifiedName space name) :=
  readsAsSymbol_iff.mpr (isName_qualifiedName hspace (readsAsSymbol_iff.mp h))

end NativeSet

end ConsoleLisp
