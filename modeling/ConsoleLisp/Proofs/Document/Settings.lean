import ConsoleLisp.Proofs.Document.Judgement
import ConsoleLisp.Proofs.Memory.Installation
import ConsoleLisp.Settings
import Mathlib.Data.List.Induction

/-!
# Settings are judged exactly, and consoles accept them

`Settings.Describes` says which documents describe settings and `Settings.Objects` what is wrong with
any other one. The settings are named by their keys (`Settings.setting`), and one relation says which
values they take (`SettingsKey.Reads`), so an entry changes the setting of its key and no other.

Results:
* `Settings.overlay_of_reads`, `Settings.Refuses.overlay`: one entry.
* `Settings.foldlM_overlay`: entries that are all accepted set what they say.
* `Settings.Describes.perm`: the order of the entries does not matter.
* `Settings.HasCounts.create_eq_error_iff`: a console with such settings is refused only for want of
  slots, and exactly when the bound has no room for its natives.
* **`Settings.accepted_by_consoles`**: the settings that a document gives or the first entry that is
  wrong, and that the checks of a console refuse none of them.
-/

namespace ConsoleLisp

/-- What a setting is set to: a count, or none, or on or off. -/
inductive Setting
  | count (n : Option Number)
  | flag (b : Bool)

namespace SettingsKey

/-- The settings that count something. -/
def counts : List SettingsKey := [stepLimit, maxHeapSlots, logCapacity]

/-- The counts that are limits, which null takes away. -/
def limits : List SettingsKey := [stepLimit, maxHeapSlots]

/-- The settings that are on or off. -/
def flags : List SettingsKey := [builtins, echoResults]

variable {key : SettingsKey} {value : Value} {v v' : Setting} {n : Number}

/-- The value is one for the setting, and sets it to this. -/
inductive Reads : SettingsKey → Value → Setting → Prop
  | none {key : SettingsKey} : key ∈ limits → Reads key .null (.count none)
  | count {key : SettingsKey} {n : Number} {k : Nat} : key ∈ counts → 0 < k → n.IsCount k →
      Reads key (.number n) (.count (some n))
  | flag {key : SettingsKey} {b : Bool} : key ∈ flags → Reads key (.boolean b) (.flag b)

theorem Reads.unique (h : key.Reads value v) (h' : key.Reads value v') : v = v' := by
  cases h <;> cases h' <;> rfl

theorem Reads.exists_isCount (h : key.Reads value (.count (some n))) : ∃ k, 0 < k ∧ n.IsCount k := by
  cases h with
  | count _ hpos hk => exact ⟨_, hpos, hk⟩

theorem mem_counts_iff : key ∈ counts ↔ key = stepLimit ∨ key = maxHeapSlots ∨ key = logCapacity := by
  simp [counts]

theorem mem_limits_iff : key ∈ limits ↔ key = stepLimit ∨ key = maxHeapSlots := by simp [limits]

theorem mem_flags_iff : key ∈ flags ↔ key = builtins ∨ key = echoResults := by simp [flags]

theorem mem_counts_or_mem_flags (key : SettingsKey) : key ∈ counts ∨ key ∈ flags := by
  cases key <;> decide

theorem ofName?_name (key : SettingsKey) : ofName? key.name = some key := by
  cases key <;> decide +kernel

theorem name_injective : Function.Injective name := by
  intro key other h
  have hsome := ofName?_name other
  rw [← h, ofName?_name] at hsome
  exact Option.some.inj hsome

theorem ofName?_eq_none {name : Text} (h : ∀ key : SettingsKey, name ≠ key.name) :
    ofName? name = none := by
  rw [ofName?, List.find?_eq_none]
  exact fun key _ heq => h key (eq_of_beq heq).symm

end SettingsKey

namespace Settings

variable {s s' : Settings} {key : SettingsKey} {value : Value} {v : Setting} {n : Number}
  {entry : Text × Value} {entries : Keyed Value} {reason : SettingsError}

/-- What the setting of a key is set to. -/
def setting (s : Settings) : SettingsKey → Setting
  | .stepLimit => .count s.stepLimit
  | .maxHeapSlots => .count s.maxHeapSlots
  | .builtins => .flag s.builtins
  | .logCapacity => .count (some s.logCapacity)
  | .echoResults => .flag s.echoResults

theorem ext_setting (h : ∀ key, s.setting key = s'.setting key) : s = s' := by
  obtain ⟨steps, slots, builtins, capacity, echo⟩ := s
  obtain ⟨steps', slots', builtins', capacity', echo'⟩ := s'
  cases h .stepLimit
  cases h .maxHeapSlots
  cases h .builtins
  cases h .logCapacity
  cases h .echoResults
  rfl

/-! ## Entries -/

theorem positiveInteger_of_isCount {k : Nat} (hpos : 0 < k) (hk : n.IsCount k) (name : Text) :
    positiveInteger name (.number n) = .ok n :=
  if_pos (Number.isPositiveInteger_iff.mpr ⟨k, hpos, hk⟩)

theorem overlay_name (s : Settings) (key : SettingsKey) (value : Value) :
    s.overlay (key.name, value) =
      match key with
      | .stepLimit => (limit key.name value).map fun n => { s with stepLimit := n }
      | .maxHeapSlots => (limit key.name value).map fun n => { s with maxHeapSlots := n }
      | .logCapacity => (positiveInteger key.name value).map fun n => { s with logCapacity := n }
      | .builtins => (boolean key.name value).map fun b => { s with builtins := b }
      | .echoResults => (boolean key.name value).map fun b => { s with echoResults := b } := by
  simp only [overlay, SettingsKey.ofName?_name]
  cases key <;> rfl

/-- **An accepted entry** changes the setting of its key, and no other. -/
theorem overlay_of_reads (h : key.Reads value v) (s : Settings) :
    ∃ s', s.overlay (key.name, value) = .ok s' ∧ s'.setting = Function.update s.setting key v := by
  rw [overlay_name]
  cases h with
  | none hkey =>
    rcases SettingsKey.mem_limits_iff.mp hkey with rfl | rfl
    all_goals
      refine ⟨_, rfl, funext fun other => ?_⟩
      cases other <;> rfl
  | count hkey hpos hk =>
    rcases SettingsKey.mem_counts_iff.mp hkey with rfl | rfl | rfl
    all_goals
      simp only [limit, positiveInteger_of_isCount hpos hk]
      refine ⟨_, rfl, funext fun other => ?_⟩
      cases other <;> rfl
  | flag hkey =>
    rcases SettingsKey.mem_flags_iff.mp hkey with rfl | rfl
    all_goals
      refine ⟨_, rfl, funext fun other => ?_⟩
      cases other <;> rfl

/-- The entry has a key of a setting and a value for it. -/
def Admits (entry : Text × Value) : Prop :=
  ∃ (key : SettingsKey) (v : Setting), entry.1 = key.name ∧ key.Reads entry.2 v

/-- What is wrong with an entry. -/
inductive Refuses : Text × Value → SettingsError → Prop
  | unknownKey {name : Text} {value : Value} : (∀ key : SettingsKey, name ≠ key.name) →
      Refuses (name, value) (.unknownKey name)
  | notPositiveInteger {key : SettingsKey} {value : Value} : key ∈ SettingsKey.counts →
      (∀ v, ¬ key.Reads value v) → Refuses (key.name, value) (.notPositiveInteger key.name)
  | notBoolean {key : SettingsKey} {value : Value} : key ∈ SettingsKey.flags →
      (∀ v, ¬ key.Reads value v) → Refuses (key.name, value) (.notBoolean key.name)

theorem positiveInteger_of_not {name : Text}
    (h : ∀ n k, value = .number n → 0 < k → ¬ Number.IsCount n k) :
    positiveInteger name value = .error (.notPositiveInteger name) := by
  cases value with
  | number n =>
    refine if_neg fun hn => ?_
    obtain ⟨k, hpos, hk⟩ := Number.isPositiveInteger_iff.mp hn
    exact h n k rfl hpos hk
  | null | boolean | text | list | mapping => rfl

theorem limit_of_ne {name : Text} (h : value ≠ .null) :
    limit name value = (positiveInteger name value).map some := by
  cases value with
  | null => exact absurd rfl h
  | boolean | number | text | list | mapping => rfl

/-- **A refused entry** is an error over any settings. -/
theorem Refuses.overlay (h : Refuses entry reason) (s : Settings) :
    s.overlay entry = .error reason := by
  cases h with
  | unknownKey hname => simp only [Settings.overlay, SettingsKey.ofName?_eq_none hname]
  | @notPositiveInteger key value hkey hnot =>
    have hrun : positiveInteger key.name value = .error (.notPositiveInteger key.name) := by
      refine positiveInteger_of_not ?_
      rintro n k rfl hpos hk
      exact hnot _ (.count hkey hpos hk)
    have hlimit (hkey : key ∈ SettingsKey.limits) :
        limit key.name value = .error (.notPositiveInteger key.name) := by
      have hnull : value ≠ .null := by
        rintro rfl
        exact hnot _ (.none hkey)
      rw [limit_of_ne hnull, hrun]
      rfl
    rw [overlay_name]
    rcases SettingsKey.mem_counts_iff.mp hkey with rfl | rfl | rfl
    · simp only [hlimit (by decide)]
      rfl
    · simp only [hlimit (by decide)]
      rfl
    · simp only [hrun]
      rfl
  | @notBoolean key value hkey hnot =>
    rw [overlay_name]
    cases value with
    | boolean b => exact absurd (.flag hkey) (hnot _)
    | null | number | text | list | mapping =>
      rcases SettingsKey.mem_flags_iff.mp hkey with rfl | rfl <;> rfl

theorem admits_or_refuses (entry : Text × Value) :
    Admits entry ∨ ∃ reason, Refuses entry reason := by
  obtain ⟨name, value⟩ := entry
  by_cases hname : ∃ key : SettingsKey, name = key.name
  · obtain ⟨key, rfl⟩ := hname
    by_cases hvalue : ∃ v, key.Reads value v
    · exact .inl ⟨key, hvalue.choose, rfl, hvalue.choose_spec⟩
    · have hnot := not_exists.mp hvalue
      rcases key.mem_counts_or_mem_flags with hkey | hkey
      · exact .inr ⟨_, .notPositiveInteger hkey hnot⟩
      · exact .inr ⟨_, .notBoolean hkey hnot⟩
  · exact .inr ⟨_, .unknownKey (not_exists.mp hname)⟩

/-! ## Documents -/

/-- Each setting is what the last entry under its key says, or what it was without one. -/
def Overlays (s : Settings) (entries : Keyed Value) (s' : Settings) : Prop :=
  ∀ key : SettingsKey,
    Keyed.Says entries.reverse key.name key.Reads (s.setting key) (s'.setting key)

theorem Overlays.unique {s₁ s₂ : Settings} (h₁ : s.Overlays entries s₁)
    (h₂ : s.Overlays entries s₂) : s₁ = s₂ := by
  refine ext_setting fun key => ?_
  rcases h₁ key with ⟨hnone, heq₁⟩ | ⟨value, hvalue, hreads₁⟩
  · rcases h₂ key with ⟨-, heq₂⟩ | ⟨value, hvalue, -⟩
    · rw [heq₁, heq₂]
    · cases hnone.symm.trans hvalue
  · rcases h₂ key with ⟨hnone, -⟩ | ⟨value', hvalue', hreads₂⟩
    · cases hnone.symm.trans hvalue
    · cases hvalue.symm.trans hvalue'
      exact hreads₁.unique hreads₂

/-- **Accepted entries** set what they say. -/
theorem foldlM_overlay (s : Settings) (h : ∀ entry ∈ entries, Admits entry) :
    ∃ s', entries.foldlM overlay s = .ok s' ∧ s.Overlays entries s' := by
  induction entries using List.reverseRecOn with
  | nil => exact ⟨s, rfl, fun key => .inl ⟨rfl, rfl⟩⟩
  | append_singleton entries last ih =>
    obtain ⟨s₁, hrun, hsays⟩ := ih fun entry hentry => h entry (List.mem_append_left _ hentry)
    obtain ⟨key, v, hname, hreads⟩ := h last (by simp)
    obtain ⟨name, value⟩ := last
    obtain rfl : name = key.name := hname
    obtain ⟨s₂, hlast, hset⟩ := overlay_of_reads hreads s₁
    refine ⟨s₂, ?_, fun other => ?_⟩
    · rw [List.foldlM_append, hrun]
      simp only [bind, Except.bind, List.foldlM_cons, List.foldlM_nil, hlast]
      rfl
    · rw [List.reverse_concat, Keyed.Says, Keyed.get?_cons, hset]
      by_cases hother : other = key
      · subst hother
        rw [if_pos rfl, Function.update_self]
        exact .inr ⟨value, rfl, hreads⟩
      · rw [if_neg fun hname => hother (SettingsKey.name_injective hname).symm,
          Function.update_of_ne hother]
        exact hsays other

theorem foldlM_overlay_of_refuses {before after : Keyed Value}
    (h : ∀ other ∈ before, Admits other) (hrefuses : Refuses entry reason) (s : Settings) :
    (before ++ entry :: after).foldlM overlay s = .error reason := by
  obtain ⟨s', hrun, -⟩ := foldlM_overlay s h
  rw [List.foldlM_append, hrun]
  simp only [bind, Except.bind, List.foldlM_cons, hrefuses.overlay]

/-- The document describes the settings: nothing at all the default ones, and a mapping of accepted
entries those that they overlay. -/
inductive Describes : Value → Settings → Prop
  | nothing : Describes .null default
  | mapping {entries : Keyed Value} {s : Settings} : (∀ entry ∈ entries, Admits entry) →
      default.Overlays entries s → Describes (.mapping entries) s

/-- What is wrong with a document: of its entries, the first one that is refused. -/
inductive Objects : Value → SettingsError → Prop
  | notMapping {value : Value} : value ≠ .null → (∀ entries, value ≠ .mapping entries) →
      Objects value .notMapping
  | entry {before after : Keyed Value} {entry : Text × Value} {reason : SettingsError} :
      (∀ other ∈ before, Admits other) → Refuses entry reason →
      Objects (.mapping (before ++ entry :: after)) reason

theorem ofValue_of_describes (h : Describes value s) : ofValue value = .ok s := by
  cases h with
  | nothing => rfl
  | mapping hadmits hoverlays =>
    obtain ⟨s', hrun, hoverlays'⟩ := foldlM_overlay default hadmits
    rw [hoverlays.unique hoverlays']
    exact hrun

theorem ofValue_of_objects (h : Objects value reason) : ofValue value = .error reason := by
  cases h with
  | notMapping hnull hnot =>
    cases value with
    | null => exact absurd rfl hnull
    | mapping entries => exact absurd rfl (hnot entries)
    | boolean | number | text | list => rfl
  | entry hadmits hrefuses => exact foldlM_overlay_of_refuses hadmits hrefuses default

theorem describes_or_objects (value : Value) :
    (∃ s, Describes value s) ∨ ∃ reason, Objects value reason := by
  cases value with
  | null => exact .inl ⟨_, .nothing⟩
  | boolean | number | text | list => exact .inr ⟨_, .notMapping nofun nofun⟩
  | mapping entries =>
    rcases forall_or_first_not Admits entries with
      hadmits | ⟨before, entry, after, rfl, hbefore, hnot⟩
    · obtain ⟨s, -, hoverlays⟩ := foldlM_overlay default hadmits
      exact .inl ⟨s, .mapping hadmits hoverlays⟩
    · obtain ⟨reason, hrefuses⟩ := (admits_or_refuses entry).resolve_left hnot
      exact .inr ⟨reason, .entry hbefore hrefuses⟩

theorem judges : Judges ofValue Describes Objects :=
  .of_cases ofValue_of_describes ofValue_of_objects describes_or_objects

/-- With distinct keys the order of the entries does not matter to what they say. -/
theorem Describes.perm {entries' : Keyed Value} (h : Describes (.mapping entries) s)
    (hkeys : (entries.map Prod.fst).Nodup) (hperm : entries.Perm entries') :
    Describes (.mapping entries') s := by
  have hkeys' : (entries'.map Prod.fst).Nodup := (hperm.map Prod.fst).nodup_iff.mp hkeys
  cases h with
  | mapping hadmits hoverlays =>
    refine .mapping (fun entry hentry => hadmits entry (hperm.mem_iff.mpr hentry)) fun key => ?_
    have hget : Keyed.get? key.name entries'.reverse = Keyed.get? key.name entries.reverse := by
      ext value
      rw [Keyed.get?_reverse hkeys', Keyed.get?_reverse hkeys, Keyed.get?_eq_some_iff hkeys',
        Keyed.get?_eq_some_iff hkeys, hperm.mem_iff]
    rw [Keyed.Says, hget]
    exact hoverlays key

/-- What is wrong with a document makes it invalid; it is no failure to read a file. -/
theorem Objects.code (h : Objects value reason) : reason.code = .configurationInvalid := by
  cases h with
  | notMapping => rfl
  | entry _ hrefuses => cases hrefuses <;> rfl

/-! ## Consoles -/

/-- The counts are whole numbers of at least one. -/
def HasCounts (s : Settings) : Prop :=
  ∀ (key : SettingsKey) (n : Number), s.setting key = .count (some n) → ∃ k, 0 < k ∧ n.IsCount k

theorem isCount_ofNat_defaultLogCapacity :
    (Number.ofNat defaultLogCapacity).IsCount defaultLogCapacity :=
  ⟨by decide +kernel, by decide +kernel, by decide +kernel⟩

theorem hasCounts_default : default.HasCounts := by
  intro key n h
  cases key with
  | logCapacity =>
    obtain rfl := Option.some.inj (Setting.count.inj h)
    exact ⟨_, by decide, isCount_ofNat_defaultLogCapacity⟩
  | stepLimit | maxHeapSlots | builtins | echoResults => cases h

/-- **Described settings** have whole numbers of at least one for counts. -/
theorem Describes.hasCounts (h : Describes value s) : s.HasCounts := by
  cases h with
  | nothing => exact hasCounts_default
  | mapping _ hoverlays =>
    intro key n hn
    rcases hoverlays key with ⟨-, heq⟩ | ⟨value, -, hreads⟩
    · exact hasCounts_default key n (heq ▸ hn)
    · exact (hn ▸ hreads).exists_isCount

end Settings

/-- **With valid limits** a context is refused only for want of slots, and exactly when the bound on
them is below what its natives take. -/
theorem Options.IsValid.create_eq_error_iff {χ : Type} {options : Options (Action χ)}
    (h : options.IsValid) (id : Nat) {fault : Fault} :
    Context.create id options = .error fault ↔
      ∃ n k, options.maxHeapSlots = some n ∧ n.IsCount k ∧ k < 2 + 4 * options.nativeCount ∧
        fault = .heap (.exhausted id n) := by
  obtain ⟨heap₀, hcreate⟩ := h.exists_heap id
  have hstart := Heap.create_eq_ok hcreate
  have hlive₀ : heap₀.live = 1 := by rw [hstart]
  have htakes := Heap.rootScope_takes hcreate options.installed
  rw [Options.length_installed] at htakes
  obtain ⟨heap, -, -, ⟨scope, hrun, hlive⟩ | ⟨hrun, hroom⟩⟩ := htakes
  · rw [h.create_eq hcreate hrun]
    refine iff_of_false nofun ?_
    rintro ⟨n, k, hslots, hk, hlt, -⟩
    have hceil : Number.ceil? (options.maxHeapSlots.getD Number.infinity) = some k := by
      rw [hslots]
      exact hk.ceil?_eq
    have hle := live_le_of_rootScope hcreate hrun hceil
    omega
  · obtain ⟨n, k, hslots, hk, hlt⟩ : options.BoundsBelow (2 + 4 * options.nativeCount) := by
      rw [h.boundsBelow_iff, ← (Heap.create_within hcreate).maxSlots_eq]
      by_contra hnone
      refine hroom fun limit hlimit => ?_
      have hle := not_lt.mp fun hlt => hnone ⟨limit, hlimit, hlt⟩
      omega
    have hfault : heap₀.exhaustion = .heap (.exhausted id n) := by
      rw [hstart, hslots]
      rfl
    rw [h.create_eq hcreate hrun, hfault]
    constructor
    · intro heq
      exact ⟨n, k, hslots, hk, hlt, (Except.error.inj heq).symm⟩
    · rintro ⟨n', k', hslots', -, -, rfl⟩
      cases hslots.symm.trans hslots'
      rfl

namespace Settings

variable {s : Settings} {χ σ ν : Type}

/-- The bound on the slots is this number, and it is below what nil, the root scope and the natives
of a console take. -/
def LacksSlots (s : Settings) (n : Number) : Prop :=
  s.maxHeapSlots = some n ∧
    ∃ k, n.IsCount k ∧ k < 2 + 4 * ((if s.builtins then Builtin.all.length else 0) + 1)

/-- What a console makes its context with. -/
def contextOptions (χ : Type) (s : Settings) : Options (ConsoleAction χ) :=
  ⟨s.stepLimit, none, s.maxHeapSlots, s.builtins, LevelAction.natives⟩

theorem HasCounts.isValid (h : s.HasCounts) : (s.contextOptions χ).IsValid where
  stepLimit n hn := h .stepLimit n (congrArg Setting.count hn)
  depthLimit := nofun
  maxHeapSlots n hn := h .maxHeapSlots n (congrArg Setting.count hn)

/-- The log of a console refuses no capacity that settings have. -/
theorem HasCounts.check_logCapacity (h : s.HasCounts) :
    CountSetting.logCapacity.check (some s.logCapacity) = .ok () := by
  refine CountSetting.check_eq_ok_iff.mpr fun n hn => ?_
  exact h .logCapacity n (congrArg Setting.count hn)

/-- **Consoles accept settings.** A console is refused only for want of slots, and exactly when the
bound on them is below what its natives take. -/
theorem HasCounts.create_eq_error_iff (h : s.HasCounts) (id : Nat) (level : Level) (host : σ)
    {fault : Fault} :
    (Console.create id s.consoleOptions level host : Except Fault (Console χ σ ν)) = .error fault ↔
      ∃ n, s.LacksSlots n ∧ fault = .heap (.exhausted id n) := by
  have hcontext : (Console.create id s.consoleOptions level host :
      Except Fault (Console χ σ ν)) = .error fault ↔
        Context.create id (s.contextOptions χ) = .error fault := by
    simp only [Console.create, consoleOptions, contextOptions, h.check_logCapacity, bind,
      Except.bind]
    generalize Context.create id _ = made
    cases made with
    | ok made => exact iff_of_false nofun nofun
    | error fault => simp
  rw [hcontext, h.isValid.create_eq_error_iff]
  constructor
  · rintro ⟨n, k, hslots, hk, hlt, rfl⟩
    exact ⟨n, ⟨hslots, k, hk, hlt⟩, rfl⟩
  · rintro ⟨n, ⟨hslots, k, hk, hlt⟩, rfl⟩
    exact ⟨n, k, hslots, hk, hlt, rfl⟩

/-! ## The judgement -/

/-- A setting that counts takes the numbers that the checks of a console let through. -/
theorem check_eq_ok_iff_reads {key : SettingsKey} (hkey : key ∈ SettingsKey.counts)
    (setting : CountSetting) (n : Number) :
    setting.check (some n) = .ok () ↔ ∃ v, key.Reads (.number n) v := by
  rw [CountSetting.check_eq_ok_iff]
  constructor
  · intro h
    obtain ⟨k, hpos, hk⟩ := h n rfl
    exact ⟨_, .count hkey hpos hk⟩
  · rintro ⟨_, hreads⟩ _ ⟨⟩
    cases hreads with
    | count _ hpos hk => exact ⟨_, hpos, hk⟩

/-- **Settings are judged exactly, and consoles accept them.** A document gives the settings that it
describes, in whatever order its entries are; it is refused as invalid when something is wrong with
it, for the first entry that is wrong. A console with settings of a document is refused only for want
of slots, when the bound on them is below what its natives take. -/
theorem accepted_by_consoles (value : Value) :
    (∀ s, ofValue value = .ok s ↔ Describes value s) ∧
    (∀ reason, ofValue value = .error reason ↔ Objects value reason) ∧
    (∀ reason path, ofValue value = .error reason →
      (ConfigurationError.settings reason path).code = .configurationInvalid) ∧
    (∀ entries entries' : Keyed Value, value = .mapping entries → (entries.map Prod.fst).Nodup →
      entries.Perm entries' → ∀ s, ofValue value = .ok s ↔ ofValue (.mapping entries') = .ok s) ∧
    (∀ s, ofValue value = .ok s → ∀ (χ σ ν : Type) (id : Nat) (level : Level) (host : σ) fault,
      (Console.create id s.consoleOptions level host : Except Fault (Console χ σ ν)) =
        .error fault ↔ ∃ n, s.LacksSlots n ∧ fault = .heap (.exhausted id n)) ∧
    (∀ key ∈ SettingsKey.counts, ∀ (setting : CountSetting) n,
      setting.check (some n) = .ok () ↔ ∃ v, key.Reads (.number n) v) ∧
    ∀ t path, Value.ofYaml t = .ok value → load (.file t) path = ofValue value := by
  refine ⟨fun _ => judges.ok_iff, fun _ => judges.error_iff,
    fun reason path h => (judges.error_iff.mp h).code, ?_, fun s h _ _ _ id level host fault => ?_,
    fun key hkey setting n => check_eq_ok_iff_reads hkey setting n, fun t path h => ?_⟩
  · rintro entries entries' rfl hkeys hperm s
    have hkeys' := (hperm.map Prod.fst).nodup_iff.mp hkeys
    rw [judges.ok_iff, judges.ok_iff]
    exact ⟨fun h => h.perm hkeys hperm, fun h => h.perm hkeys' hperm.symm⟩
  · exact (judges.ok_iff.mp h).hasCounts.create_eq_error_iff id level host
  · simp only [load, FileContent.read, h]

end Settings

end ConsoleLisp
