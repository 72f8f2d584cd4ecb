import ConsoleLisp.Proofs.Datum.Progress
import ConsoleLisp.Proofs.Number.Grammar
import ConsoleLisp.Proofs.Value.Tree

/-!
# The grammar of data and the reader

`Derives room tokens t` is the grammar: the tokens are one datum, written with at most `room` lists
and quotations open at once, and `t` is the value it denotes. The reader keeps the open lists and
quotations on a stack of frames; `Opens` says which tokens have led to a stack.

Results:
* **`resume_of_derives`**: whatever is open, the reader goes over the tokens of a datum and delivers
  it to the innermost frame.
* **`absorb_sound`**, `Completes.derives`: what a token does inside open frames, and so the tokens
  that complete a datum derive it.
* `readDatum_of_derives`, `derives_of_readDatum`: reading the first datum of a text, both ways.
-/

namespace ConsoleLisp

variable {β : Type}

mutual

/-- The tokens are one datum, written with at most `room` lists and quotations open at once. -/
inductive Derives : Nat → List Token → Tree β → Prop
  | string {room : Nat} {token : Token} : token.kind = .string →
      Derives room [token] (.string token.value)
  | number {room : Nat} {token : Token} {literal : Literal} : token.kind = .atom →
      Literal.parse? token.value = some literal → Derives room [token] (.number literal.value)
  | symbol {room : Nat} {token : Token} : token.kind = .atom →
      isNumberLiteral token.value = false → Derives room [token] (.symbol token.value)
  | quotation {room : Nat} {mark : Token} {tokens : List Token} {t : Tree β} : mark.kind = .quote →
      Derives room tokens t →
      Derives (room + 1) (mark :: tokens) (.ofList [.symbol (text "quote"), t])
  | list {room : Nat} {opening closing : Token} {tokens : List Token} {items : List (Tree β)} :
      opening.kind = .openList → closing.kind = .closeList → DeriveAll room tokens items →
      Derives (room + 1) (opening :: (tokens ++ [closing])) (.ofList items)

/-- The tokens are some data, one behind the other. -/
inductive DeriveAll : Nat → List Token → List (Tree β) → Prop
  | nil {room : Nat} : DeriveAll room [] []
  | cons {room : Nat} {first rest : List Token} {t : Tree β} {items : List (Tree β)} :
      Derives room first t → DeriveAll room rest items →
      DeriveAll room (first ++ rest) (t :: items)

end

/-! ## The grammar -/

mutual

/-- More room derives no less. -/
theorem Derives.mono {room room' : Nat} {tokens : List Token} {t : Tree β} (hle : room ≤ room') :
    Derives room tokens t → Derives room' tokens t
  | .string h => .string h
  | .number h h' => .number h h'
  | .symbol h h' => .symbol h h'
  | .quotation h hd => by
    obtain ⟨more, rfl⟩ := Nat.exists_eq_add_of_le' hle
    exact .quotation h (hd.mono (Nat.le_add_left _ more))
  | .list h h' hd => by
    obtain ⟨more, rfl⟩ := Nat.exists_eq_add_of_le' hle
    exact .list h h' (hd.mono (Nat.le_add_left _ more))

theorem DeriveAll.mono {room room' : Nat} {tokens : List Token} {items : List (Tree β)}
    (hle : room ≤ room') : DeriveAll room tokens items → DeriveAll room' tokens items
  | .nil => .nil
  | .cons h h' => .cons (h.mono hle) (h'.mono hle)

end

theorem Derives.ne_nil {room : Nat} {tokens : List Token} {t : Tree β}
    (h : Derives room tokens t) : tokens ≠ [] := by
  cases h <;> exact List.cons_ne_nil _ _

/-- One more datum behind some others. -/
theorem DeriveAll.append {room : Nat} {tokens more : List Token} {items others : List (Tree β)}
    (h : DeriveAll room tokens items) (h' : DeriveAll room more others) :
    DeriveAll room (tokens ++ more) (items ++ others) := by
  induction items generalizing tokens with
  | nil =>
    cases h
    exact h'
  | cons t items ih =>
    cases h with
    | cons ht hrest =>
      rw [List.append_assoc]
      exact .cons ht (ih hrest)

theorem Datum.ofAtom_of_not_literal {t : Text} (h : isNumberLiteral t = false) :
    Datum.ofAtom t = .symbol t := by
  rw [ofAtom, Literal.parse?_eq_none_iff.mpr h]

/-- The tree of a bare atom. -/
theorem Derives.atom {room : Nat} {token : Token} (h : token.kind = .atom) :
    Derives room [token] (Datum.ofAtom token.value).toTree (β := β) := by
  unfold Datum.ofAtom
  cases hparse : Literal.parse? token.value with
  | some literal => exact .number h hparse
  | none => exact .symbol h (Literal.parse?_eq_none_iff.mp hparse)

theorem Datum.toTree_ofList (items : List Datum) :
    (Datum.ofList items).toTree = Tree.ofList (items.map (Datum.toTree (β := β))) := by
  induction items with
  | nil => rfl
  | cons d items ih => exact congrArg (Tree.pair d.toTree) ih

/-! ## Steps of the reader -/

/-- The offset behind the last token, or the one before them without any. -/
def lastEndOf (before : Nat) (tokens : List Token) : Nat :=
  tokens.foldl (fun _ token => token.stop.offset) before

theorem lastEndOf_append (before : Nat) (tokens more : List Token) :
    lastEndOf before (tokens ++ more) = lastEndOf (lastEndOf before tokens) more :=
  List.foldl_append

theorem getLast?_lastEndOf (before : Nat) {tokens : List Token} (h : tokens ≠ []) :
    tokens.getLast?.map (·.stop.offset) = some (lastEndOf before tokens) := by
  obtain ⟨init, last, rfl⟩ : ∃ init last, tokens = init ++ [last] :=
    ⟨_, _, (List.dropLast_concat_getLast h).symm⟩
  simp [lastEndOf]

namespace Reader

/-- Put a complete datum into the open frames and go on. -/
def deliver (base : Nat) (d : Datum) (frames : List Frame) (lastEnd : Nat) (place : Location)
    (rest : List Lexeme) : Except ReadFailure Datum × Reader :=
  match plug d frames with
  | .inl datum => (.ok datum, ⟨rest, place, lastEnd, base⟩)
  | .inr frames => resume base frames lastEnd place rest

variable {base lastEnd : Nat} {frames : List Frame} {place : Location} {lexeme : Lexeme}
  {token : Token} {rest : List Lexeme}

theorem resume_string (ht : lexeme.token = .ok token) (hk : token.kind = .string) :
    resume base frames lastEnd place (lexeme :: rest) =
      deliver base (.string token.value) frames token.stop.offset lexeme.next.place rest := by
  rw [resume, ht]
  simp only [hk]
  rfl

theorem resume_atom (ht : lexeme.token = .ok token) (hk : token.kind = .atom) :
    resume base frames lastEnd place (lexeme :: rest) =
      deliver base (.ofAtom token.value) frames token.stop.offset lexeme.next.place rest := by
  rw [resume, ht]
  simp only [hk]
  rfl

theorem resume_openList (ht : lexeme.token = .ok token) (hk : token.kind = .openList)
    (hroom : base + frames.length < maxReadDepth) :
    resume base frames lastEnd place (lexeme :: rest) =
      resume base (.list token.start [] :: frames) token.stop.offset lexeme.next.place rest := by
  rw [resume, ht]
  simp only [hk, if_neg (Nat.not_le.mpr hroom)]

theorem resume_quote (ht : lexeme.token = .ok token) (hk : token.kind = .quote)
    (hroom : base + frames.length < maxReadDepth) :
    resume base frames lastEnd place (lexeme :: rest) =
      resume base (.quotation :: frames) token.stop.offset lexeme.next.place rest := by
  rw [resume, ht]
  simp only [hk, if_neg (Nat.not_le.mpr hroom)]

theorem resume_closeList (ht : lexeme.token = .ok token) (hk : token.kind = .closeList)
    (opened : Location) (items : List Datum) :
    resume base (.list opened items :: frames) lastEnd place (lexeme :: rest) =
      deliver base (.ofList items.reverse) frames token.stop.offset lexeme.next.place rest := by
  rw [resume, ht]
  simp only [hk]
  rfl

end Reader

/-! ## Everything that is derived is read -/

open Reader

/-- The reader goes over the tokens of a datum and delivers it. -/
def Goes (room : Nat) (tokens : List Token) (t : Tree β) : Prop :=
  ∀ (base : Nat) (frames : List Frame) ⦃lastEnd : Nat⦄ ⦃place : Location⦄ ⦃read : List Lexeme⦄
    (rest : List Lexeme), read.map Lexeme.token = tokens.map .ok →
    base + frames.length + room ≤ maxReadDepth →
    ∃ d place', d.toTree = t ∧ resume base frames lastEnd place (read ++ rest) =
      deliver base d frames (lastEndOf lastEnd tokens) place' rest

/-- Inside a list the reader goes over the tokens of some data and puts them behind the items it
has met. -/
def GoesAll (room : Nat) (tokens : List Token) (items : List (Tree β)) : Prop :=
  ∀ (base : Nat) (met : List Datum) (outer : List Frame) ⦃lastEnd : Nat⦄ ⦃opened : Location⦄
    ⦃place : Location⦄ ⦃read : List Lexeme⦄ (rest : List Lexeme),
    read.map Lexeme.token = tokens.map .ok →
    base + (outer.length + 1) + room ≤ maxReadDepth →
    ∃ (data : List Datum) (place' : Location), data.map Datum.toTree = items ∧
      resume base (.list opened met :: outer) lastEnd place (read ++ rest) =
        resume base (.list opened (data.reverse ++ met) :: outer) (lastEndOf lastEnd tokens) place'
          rest

theorem Goes.of_atom {room : Nat} {token : Token} {t : Tree β} (hk : token.kind = .atom)
    (ht : (Datum.ofAtom token.value).toTree = t) : Goes room [token] t := by
  intro base frames lastEnd place read rest hread _
  obtain ⟨lexeme, rfl, hlexeme⟩ := List.map_eq_singleton_iff.mp hread
  exact ⟨_, _, ht, resume_atom hlexeme hk⟩

mutual

/-- **Whatever is open, the reader goes over the tokens of a datum and delivers it.** -/
theorem resume_of_derives {room : Nat} {tokens : List Token} {t : Tree β} :
    Derives room tokens t → Goes room tokens t
  | .string hk => by
    intro base frames lastEnd place read rest hread _
    obtain ⟨lexeme, rfl, hlexeme⟩ := List.map_eq_singleton_iff.mp hread
    exact ⟨_, _, rfl, resume_string hlexeme hk⟩
  | .number hk hparse => .of_atom hk (by rw [Datum.ofAtom, hparse]; rfl)
  | .symbol hk hnot => .of_atom hk (by rw [Datum.ofAtom_of_not_literal hnot]; rfl)
  | .quotation hk hd => by
    intro base frames lastEnd place read rest hread hroom
    obtain ⟨lexeme, read, rfl, hlexeme, hread⟩ := List.map_eq_cons_iff.mp hread
    obtain ⟨d, place', hd, hrun⟩ := resume_of_derives hd base (.quotation :: frames) rest hread
      (by rw [List.length_cons]; omega)
    refine ⟨.quoted d, place', by rw [Datum.toTree, hd], ?_⟩
    rw [List.cons_append, resume_quote hlexeme hk (by omega), hrun]
    rfl
  | .list hopen hclose hitems => by
    intro base frames lastEnd place read rest hread hroom
    rw [List.map_cons, List.map_append] at hread
    obtain ⟨lexeme, read, rfl, hlexeme, hread⟩ := List.map_eq_cons_iff.mp hread
    obtain ⟨inside, close, rfl, hinside, hread⟩ := List.map_eq_append_iff.mp hread
    obtain ⟨closing, rfl, hclosing⟩ := List.map_eq_singleton_iff.mp hread
    -- the list is a frame without items until its items have been read
    obtain ⟨data, place', hdata, hrun⟩ := resume_all_of_derives hitems base [] frames
      (closing :: rest) hinside (by omega)
    refine ⟨.ofList data, closing.next.place, by rw [Datum.toTree_ofList, hdata], ?_⟩
    rw [List.cons_append, List.append_assoc, List.singleton_append,
      resume_openList hlexeme hopen (by omega), hrun, resume_closeList hclosing hclose,
      List.append_nil, List.reverse_reverse, lastEndOf, List.foldl_cons, ← lastEndOf,
      lastEndOf_append]
    rfl

theorem resume_all_of_derives {room : Nat} {tokens : List Token} {items : List (Tree β)} :
    DeriveAll room tokens items → GoesAll room tokens items
  | .nil => by
    intro base met outer lastEnd opened place read rest hread _
    rw [List.map_nil, List.map_eq_nil_iff] at hread
    exact ⟨[], place, rfl, by rw [hread]; rfl⟩
  | .cons hd hrest => by
    intro base met outer lastEnd opened place read rest hread hroom
    rw [List.map_append] at hread
    obtain ⟨first, read, rfl, hfirst, hread⟩ := List.map_eq_append_iff.mp hread
    obtain ⟨d, place₁, hd, hrun₁⟩ := resume_of_derives hd base (.list opened met :: outer)
      (read ++ rest) hfirst hroom
    obtain ⟨data, place₂, hdata, hrun₂⟩ := resume_all_of_derives hrest base (d :: met) outer rest
      hread hroom
    refine ⟨d :: data, place₂, by rw [List.map_cons, hd, hdata], ?_⟩
    rw [List.append_assoc, hrun₁, List.reverse_cons, List.append_assoc, List.singleton_append,
      lastEndOf_append]
    exact hrun₂

end

/-! ## Everything that is read is derived -/

/-- The tokens have led to the open frames, with `base` lists and quotations open outside them. -/
inductive Opens (β : Type) (base : Nat) : List Token → List Frame → Prop
  | nil : Opens β base [] []
  | quotation {tokens : List Token} {frames : List Frame} {mark : Token} :
      Opens β base tokens frames → mark.kind = .quote →
      base + (frames.length + 1) ≤ maxReadDepth →
      Opens β base (tokens ++ [mark]) (.quotation :: frames)
  | list {tokens inside : List Token} {frames : List Frame} {opening : Token}
      {items : List Datum} : Opens β base tokens frames → opening.kind = .openList →
      base + (frames.length + 1) ≤ maxReadDepth →
      DeriveAll (maxReadDepth - (base + (frames.length + 1))) inside
        (items.reverse.map (Datum.toTree (β := β))) →
      Opens β base (tokens ++ opening :: inside) (.list opening.start items :: frames)

/-- What the tokens have led to: a datum that they derive, or open frames. -/
def LeadsTo (β : Type) (base : Nat) (tokens : List Token) : Datum ⊕ List Frame → Prop
  | .inl d => Derives (maxReadDepth - base) tokens (d.toTree : Tree β)
  | .inr frames => Opens β base tokens frames

/-- A datum put into the open frames completes the outermost datum or leaves frames open. -/
theorem plug_sound {base : Nat} {consumed tokens : List Token} {frames : List Frame} {d : Datum}
    (h : Opens β base consumed frames)
    (hd : Derives (maxReadDepth - (base + frames.length)) tokens (d.toTree : Tree β)) :
    LeadsTo β base (consumed ++ tokens) (plug d frames) := by
  induction h generalizing d tokens with
  | nil => exact hd
  | @quotation _ frames mark _ hmark hroom ih =>
    have hsucc : maxReadDepth - (base + frames.length) =
        maxReadDepth - (base + (frames.length + 1)) + 1 := by omega
    have hquoted : Derives (maxReadDepth - (base + frames.length)) (mark :: tokens)
        ((Datum.quoted d).toTree : Tree β) := hsucc ▸ .quotation hmark hd
    rw [List.append_assoc]
    -- the quotation is complete with its datum, so it goes on outward
    exact ih hquoted
  | list hopens hopening hroom hitems =>
    rw [List.append_assoc, List.cons_append]
    refine .list hopens hopening hroom ?_
    rw [List.reverse_cons, List.map_append]
    have hlast : DeriveAll _ (tokens ++ []) [(d.toTree : Tree β)] := .cons hd .nil
    rw [List.append_nil] at hlast
    exact hitems.append hlast

/-- **What a token does inside open frames**, by the tokens that have led to them. -/
theorem absorb_sound {base : Nat} {consumed : List Token} {token : Token} {frames : List Frame}
    {result : Datum ⊕ List Frame} (hopens : Opens β base consumed frames)
    (h : absorb base token frames = some result) :
    LeadsTo β base (consumed ++ [token]) result := by
  cases absorb_eq_some_iff.mp h with
  | openList hk hroom => exact .list hopens hk hroom .nil
  | quote hk hroom => exact .quotation hopens hk hroom
  | string hk => exact plug_sound hopens (.string hk)
  | atom hk => exact plug_sound hopens (.atom hk)
  | @closeList opened items frames hk =>
    cases hopens with
    | @list before inside _ opening _ houter hopening hroom hitems =>
      have hsucc : maxReadDepth - (base + frames.length) =
          maxReadDepth - (base + (frames.length + 1)) + 1 := by omega
      have hlist : Derives (maxReadDepth - (base + frames.length))
          (opening :: (inside ++ [token])) ((Datum.ofList items.reverse).toTree : Tree β) := by
        rw [Datum.toTree_ofList, hsucc]
        exact .list hopening hk hitems
      rw [List.append_assoc, List.cons_append]
      exact plug_sound houter hlist

/-- **The tokens that complete a datum derive it**, with those that have led to the open frames. -/
theorem Reader.Completes.derives {base : Nat} {consumed tokens : List Token} {frames : List Frame}
    {d : Datum} (h : Completes base frames tokens d) (hopens : Opens β base consumed frames) :
    Derives (maxReadDepth - base) (consumed ++ tokens) (d.toTree : Tree β) := by
  induction h generalizing consumed with
  | last habsorb => exact absorb_sound hopens habsorb
  | cons habsorb _ ih =>
    rw [List.append_cons]
    exact ih (absorb_sound hopens habsorb)

/-! ## The first datum of a text -/

/-- The tokens are the first ones of a text, without a lexical error between them. -/
def BeginsWith (source : Text) (tokens : List Token) : Prop :=
  tokens.map .ok <+: (scan source).map Lexeme.token

theorem Cursor.Scans.beginsWith {source : Text} {tokens : List Token} {c : Cursor}
    (h : (Cursor.ofText source).Scans tokens c) : BeginsWith source tokens :=
  ⟨_, h.lexemes_eq.symm⟩

/-- **A text that begins with a datum reads as that datum.** -/
theorem readDatum_of_derives {source : Text} {tokens : List Token} {t : Tree β}
    (hbegins : BeginsWith source tokens) (h : Derives maxReadDepth tokens t) :
    ∃ d, d.toTree = t ∧ readDatum source = .ok (d, lastEndOf 0 tokens) := by
  obtain ⟨behind, hbehind⟩ := hbegins
  obtain ⟨read, rest, hscan, hread, -⟩ := List.map_eq_append_iff.mp hbehind.symm
  obtain ⟨d, place, hd, hrun⟩ := resume_of_derives h 0 [] rest hread
    (Nat.le_of_eq (Nat.zero_add _))
  refine ⟨d, hd, ?_⟩
  rw [readDatum_eq, hscan, hrun]
  rfl

/-- **What reads as a datum begins with its tokens.** -/
theorem derives_of_readDatum {source : Text} {d : Datum} {stop : Nat}
    (h : readDatum source = .ok (d, stop)) :
    ∃ tokens, BeginsWith source tokens ∧ tokens ≠ [] ∧
      Derives maxReadDepth tokens (d.toTree : Tree β) ∧ stop = lastEndOf 0 tokens := by
  obtain ⟨c, ⟨tokens, hscan, hcompletes⟩, rfl⟩ := readDatum_eq_ok_iff.mp h
  have hne := hcompletes.ne_nil
  have hderives : Derives (maxReadDepth - 0) ([] ++ tokens) (d.toTree : Tree β) :=
    hcompletes.derives .nil
  obtain ⟨-, -, -, -, hlast⟩ := hscan.cuts
  refine ⟨tokens, hscan.beginsWith, hne, hderives, ?_⟩
  have hend := getLast?_lastEndOf 0 hne
  rw [List.getLast?_eq_some_getLast hne] at hend hlast
  rw [← Option.some.inj hend]
  exact congrArg Location.offset (hlast _ rfl).symm

end ConsoleLisp
