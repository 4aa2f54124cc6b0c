import LambdaReader.Proofs.WellFormed

/-!
# `Proofs.Writing` — trees as source text

Every well-formed tree can be written: an operator goes between its operands, everything that is part of
something else goes in parentheses, and the expressions of a program go with semicolons between them.
What is written is scanned as the words it was written with, since every word that could go on with its
neighbour has a mark or a blank beside it.
-/

namespace LambdaReader

open Lexicon Lexeme TokenSource

/-! ## Words -/

/-- A token without its place and its spelling. -/
structure Word where
  kind : TokenKind
  value : Value
deriving DecidableEq

/-- What a token is but for its place and its spelling. -/
def Token.word (t : Token) : Word := ⟨t.kind, t.value⟩

namespace Word

/-- A mark of punctuation. -/
def mark (x : String) : Word := ⟨.punctuation, .text x⟩

def key (x : String) : Word := ⟨.keyword, .text x⟩

def name (x : String) : Word := ⟨.identifier, .text x⟩

def symbol (x : String) : Word := ⟨.operator, .text x⟩

end Word

/-- A choice of a numeral for each number that has one. -/
structure Numerals where
  spell : Float → List Char
  denotes {v : Float} {w : List Char} :
    Denotes .number w (.number v) → Denotes .number (spell v) (.number v)

open Classical in
instance : Nonempty Numerals :=
  ⟨⟨fun v => if h : ∃ w, Denotes .number w (.number v) then h.choose else [],
    fun {v w} hw => by
      have h : ∃ w, Denotes .number w (.number v) := ⟨w, hw⟩
      rw [dif_pos h]
      exact h.choose_spec⟩⟩

open Classical in
/-- The choice with this numeral for the number that it denotes. -/
noncomputable def Numerals.choosing (numerals : Numerals) {w : List Char} {v : Float}
    (h : Denotes .number w (.number v)) : Numerals where
  spell u := if u = v then w else numerals.spell u
  denotes {u _} hu := by
    split
    · next hv => exact hv ▸ h
    · exact numerals.denotes hu

@[simp] theorem Numerals.spell_choosing (numerals : Numerals) {w : List Char} {v : Float}
    (h : Denotes .number w (.number v)) : (numerals.choosing h).spell v = w := if_pos rfl

/-- The characters of a word. -/
def Word.spelling (numerals : Numerals) (w : Word) : List Char :=
  match w.kind, w.value with
  | .number, .number v => numerals.spell v
  | .string, .text x => stringQuote :: (escaped stringQuote x.toList ++ [stringQuote])
  | _, .text x => x.toList
  | _, _ => []

/-! ## Writing -/

/-- A word or a blank. -/
inductive Piece where
  | blank
  | word (w : Word)

namespace Piece

/-- The characters of several pieces. -/
def spelling (numerals : Numerals) (ps : List Piece) : List Char :=
  ps.flatMap fun
    | blank => [' ']
    | word w => w.spelling numerals

/-- The words among several pieces. -/
def words (ps : List Piece) : List Word :=
  ps.filterMap fun
    | blank => none
    | word w => some w

def mark (x : String) : Piece := word (.mark x)

def key (x : String) : Piece := word (.key x)

/-- In parentheses. -/
def inParens (ps : List Piece) : List Piece := mark "(" :: (ps ++ [mark ")"])

/-- One after another with a separator between each two. -/
def listed (separator : List Piece) : List (List Piece) → List Piece
  | [] => []
  | ps :: rest => ps ++ rest.flatMap (separator ++ ·)

end Piece

namespace Node

open Piece

mutual

/-- How a tree is written. -/
def pieces : Node → List Piece
  | number v _ => [.word ⟨.number, .number v⟩]
  | string v _ => [.word ⟨.string, .text v⟩]
  | bool b _ => [key (boolWord b)]
  | reference x _ => [.word (.name x)]
  | operator x _ => [.word (.symbol x)]
  | assign l r _ =>
    inParens (pieces l) ++ .blank :: .word (.symbol assignSymbol) :: .blank :: inParens (pieces r)
  | binary x l r _ =>
    inParens (pieces l) ++ .blank :: .word (.symbol x) :: .blank :: inParens (pieces r)
  | ifThen c p _ =>
    key "if" :: .blank :: (inParens (pieces c) ++
      .blank :: key "then" :: .blank :: inParens (pieces p))
  | ifElse c p n _ =>
    key "if" :: .blank :: (inParens (pieces c) ++
      .blank :: key "then" :: .blank :: (inParens (pieces p) ++
        .blank :: key "else" :: .blank :: inParens (pieces n)))
  | lambda params b _ =>
    key "lambda" :: .blank :: mark "(" ::
      (listed [mark ",", .blank] (params.map fun x => [.word (.name x)]) ++
        mark ")" :: .blank :: inParens (pieces b))
  | call f args _ =>
    inParens (pieces f) ++ mark "(" :: (listed [mark ",", .blank] (groups args) ++ [mark ")"])
  | program body _ =>
    mark "\x7b" :: .blank :: (listed [mark ";", .blank] (groups body) ++ [.blank, mark "\x7d"])

/-- How several trees are written, each in parentheses. -/
def groups : List Node → List (List Piece)
  | [] => []
  | n :: ns => inParens (pieces n) :: groups ns

end

theorem groups_eq_map (ns : List Node) : groups ns = ns.map fun n => inParens (pieces n) := by
  induction ns with
  | nil => rfl
  | cons n ns ih => rw [groups, ih, List.map_cons]

/-- The expressions of a program with semicolons between them. -/
def written (numerals : Numerals) : Node → String
  | program body _ => String.ofList (spelling numerals (listed [mark ";"] (body.map pieces)))
  | n => String.ofList (spelling numerals n.pieces)

example (numerals : Numerals) :
    let a : Node := .reference "a" none
    written numerals (.program [.binary "+" a (.call a [.bool true none, a] none) none,
      .ifThen a (.string "x" none) none] none) = "(a) + ((a)((true), (a)));if (a) then (\"x\")" := by
  rfl

end Node

/-! ## Texts that are scanned as certain words -/

/-- The text consists of lexemes with gaps between them, none of which goes on with the next one. -/
inductive Scans : List Char → List Word → Prop where
  | nil {gap : List Char} : Gap gap → Scans gap []
  | word {gap run rest : List Char} {kind : TokenKind} {v : Value} {ws : List Word} : Gap gap →
      Denotes kind run v → Stops kind run rest → Scans rest ws →
      Scans (gap ++ (run ++ rest)) (⟨kind, v⟩ :: ws)

theorem Scans.blank {c : Char} {cs : List Char} {ws : List Word} (hc : isBlank c = true)
    (h : Scans cs ws) : Scans (c :: cs) ws := by
  cases h with
  | nil hgap => exact .nil (.blank hc hgap)
  | word hgap hd hstop h => exact .word (.blank hc hgap) hd hstop h

/-- Such a text is scanned as those words, and to its end. -/
theorem Scanner.drain_of_scans {cs : List Char} {ws : List Word} (h : Scans cs ws) (s : Scanner)
    (hs : s.cursor.rest = cs) : (drain s).1.map Token.word = ws ∧ ∃ l, (drain s).2 = .done l := by
  induction h generalizing s with
  | @nil gap hgap =>
    -- Nothing but a gap is left, so the scan finds no token.
    have htrivia : triviaRun false s.cursor.rest = gap := by
      have hrun := triviaRun_gap hgap []
      rw [List.append_nil, triviaRun, List.append_nil] at hrun
      rw [hs, hrun]
    have hrest : (s.after gap).cursor.rest = [] := by
      rw [after_rest, hs, List.drop_length]
    have hscan : readNext s = .ok none (s.after gap) := by
      rw [readNext_apply, htrivia, hrest]
    rw [drain_none hscan]
    exact ⟨rfl, _, rfl⟩
  | @word gap run rest kind v ws hgap hd hstop _ ih =>
    -- The lexeme is returned whole, and what is left is scanned as the other words.
    have hrest : ((s.after gap).after run).cursor.rest = rest := by
      rw [after_rest, after_rest, hs, List.drop_left, List.drop_left]
    obtain ⟨hwords, l, hl⟩ := ih _ hrest
    rw [drain_some (readNext_lexeme hgap hd hstop hs)]
    exact ⟨congrArg (List.cons _) hwords, l, hl⟩

/-- The text starts with a blank or a mark, if with anything. -/
def Loose (cs : List Char) : Prop := ∀ c ∈ cs.head?, isBlank c = true ∨ isPunctuation c = true

/-- Blanks and marks go on with no lexeme. -/
theorem stops_of_loose {kind : TokenKind} {run rest : List Char} (h : Loose rest)
    (hclosed : kind = .string → (Literal.ofFront (· = stringQuote) run).closed = true) :
    Stops kind run rest := by
  have hnone : (blanks ++ punctuation).all (fun c => !isDigit c && c != point &&
      !isIdentifierChar c && !isOperatorChar c) = true := by decide
  refine stops_of_head (fun c hc => ?_) hclosed
  -- Blanks and marks are few, so all of them can be looked at.
  have hmem : c ∈ blanks ++ punctuation := by
    rw [List.mem_append]
    simpa only [isBlank, isPunctuation, List.contains_iff_mem] using h c hc
  have hall := List.all_eq_true.mp hnone c hmem
  simpa [Bool.and_eq_true, and_assoc] using hall

/-! ## What is written is scanned -/

theorem toList_of_isOne {isIn : Char → Bool} {x : String} (h : isOne isIn x = true) :
    ∃ c, x.toList = [c] ∧ isIn c = true := by
  unfold isOne at h
  match x.toList, h with
  | [c], h => exact ⟨c, rfl, h⟩

namespace Piece

variable {numerals : Numerals} {ps rest : List Piece}

@[simp] theorem words_append (ps qs : List Piece) : words (ps ++ qs) = words ps ++ words qs :=
  List.filterMap_append

@[simp] theorem words_blank (ps : List Piece) : words (blank :: ps) = words ps := rfl

@[simp] theorem words_mark (x : String) (ps : List Piece) :
    words (mark x :: ps) = .mark x :: words ps := rfl

@[simp] theorem words_key (x : String) (ps : List Piece) :
    words (key x :: ps) = .key x :: words ps := rfl

/-- What the pieces spell is scanned as their words. -/
def Scanned (numerals : Numerals) (ps : List Piece) : Prop :=
  Scans (spelling numerals ps) (words ps)

theorem Scanned.nil : Scanned numerals [] := Scans.nil .nil

theorem Scanned.blank (h : Scanned numerals ps) : Scanned numerals (blank :: ps) :=
  Scans.blank (by decide) h

/-- A word is scanned before a blank or a mark. -/
theorem Scanned.word {w : Word} (hd : Denotes w.kind (w.spelling numerals) w.value)
    (hclosed : w.kind = .string →
      (Literal.ofFront (· = stringQuote) (w.spelling numerals)).closed = true)
    (hloose : Loose (spelling numerals ps)) (h : Scanned numerals ps) :
    Scanned numerals (word w :: ps) :=
  Scans.word .nil hd (stops_of_loose hloose hclosed) h

theorem Scanned.mark {x : String} (hx : isOne isPunctuation x = true) (h : Scanned numerals ps) :
    Scanned numerals (mark x :: ps) := by
  obtain ⟨c, hc, hpunct⟩ := toList_of_isOne hx
  have hd : Denotes .punctuation x.toList (.text (String.ofList x.toList)) := by
    rw [hc]
    exact .punctuation hpunct
  rw [String.ofList_toList] at hd
  exact Scans.word .nil hd trivial h

theorem Scanned.key {x : String} (hword : isWord x.toList = true) (hkey : isKeyword x = true)
    (hloose : Loose (spelling numerals ps)) (h : Scanned numerals ps) :
    Scanned numerals (key x :: ps) := by
  refine Scanned.word ?_ nofun hloose h
  have hd := Denotes.keyword hword (String.ofList_toList.symm ▸ hkey)
  rw [String.ofList_toList] at hd
  exact hd

theorem Scanned.name {x : String} (hx : Node.IsName x) (hloose : Loose (spelling numerals ps))
    (h : Scanned numerals ps) : Scanned numerals (Piece.word (.name x) :: ps) := by
  refine Scanned.word ?_ nofun hloose h
  have hd := Denotes.identifier hx.1 (String.ofList_toList.symm ▸ hx.2)
  rw [String.ofList_toList] at hd
  exact hd

theorem Scanned.symbol {x : String} (hx : isSymbol x.toList = true)
    (hloose : Loose (spelling numerals ps)) (h : Scanned numerals ps) :
    Scanned numerals (Piece.word (.symbol x) :: ps) := by
  refine Scanned.word ?_ nofun hloose h
  have hd := Denotes.operator hx
  rw [String.ofList_toList] at hd
  exact hd

theorem Scanned.string (x : String) (hloose : Loose (spelling numerals ps))
    (h : Scanned numerals ps) : Scanned numerals (Piece.word ⟨.string, .text x⟩ :: ps) := by
  have hbody := ofBody_escaped (by decide : stringQuote ≠ escapeMark) x.toList []
  refine Scanned.word ?_ (fun _ => ?_) hloose h
  · have hd := Denotes.string hbody
    rw [String.ofList_toList] at hd
    exact hd
  · show (Literal.mark _ (Literal.ofBody _ _)).closed = true
    rw [hbody]
    rfl

theorem loose_blank (ps : List Piece) : Loose (spelling numerals (blank :: ps)) := by
  rintro c ⟨⟩
  exact .inl (by decide)

theorem loose_mark {x : String} (hx : isOne isPunctuation x = true) (ps : List Piece) :
    Loose (spelling numerals (Piece.mark x :: ps)) := by
  have hspelling : spelling numerals (Piece.mark x :: ps) = x.toList ++ spelling numerals ps := rfl
  obtain ⟨c, hc, hpunct⟩ := toList_of_isOne hx
  rw [hspelling, hc]
  rintro d ⟨⟩
  exact .inr hpunct

/-- Before a blank, a mark or the end the pieces are scanned as their words. -/
def Legible (numerals : Numerals) (ps : List Piece) : Prop :=
  ∀ rest, Loose (spelling numerals rest) → Scanned numerals rest → Scanned numerals (ps ++ rest)

/-- Pieces in parentheses are scanned before anything. -/
theorem Legible.inParens (h : Legible numerals ps) (hrest : Scanned numerals rest) :
    Scanned numerals (inParens ps ++ rest) := by
  rw [Piece.inParens, List.cons_append, List.append_assoc]
  exact .mark (by decide) (h _ (loose_mark (by decide) rest) (.mark (by decide) hrest))

/-- A separator is scanned before anything, and starts with a blank or a mark. -/
structure Separates (numerals : Numerals) (separator : List Piece) : Prop where
  scanned {rest : List Piece} : Scanned numerals rest → Scanned numerals (separator ++ rest)
  loose (rest : List Piece) : Loose (spelling numerals (separator ++ rest))

theorem separates_mark {x : String} (hx : isOne isPunctuation x = true) :
    Separates numerals [mark x] :=
  ⟨fun h => .mark hx h, loose_mark hx⟩

theorem separates_mark_blank {x : String} (hx : isOne isPunctuation x = true) :
    Separates numerals [mark x, blank] :=
  ⟨fun h => .mark hx (.blank h), fun rest => loose_mark hx (blank :: rest)⟩

theorem Legible.listed {separator : List Piece} {items : List (List Piece)}
    (hsep : Separates numerals separator) (h : ∀ ps ∈ items, Legible numerals ps) :
    Legible numerals (listed separator items) := by
  intro rest hloose hrest
  cases items with
  | nil => exact hrest
  | cons ps items =>
    obtain ⟨hps, hitems⟩ := List.forall_mem_cons.mp h
    -- Behind an item comes a separator or `rest`, and both start loosely.
    have htail : Loose (spelling numerals (items.flatMap (separator ++ ·) ++ rest)) ∧
        Scanned numerals (items.flatMap (separator ++ ·) ++ rest) := by
      clear h
      induction items with
      | nil => exact ⟨hloose, hrest⟩
      | cons qs items ih =>
        obtain ⟨hqs, hitems⟩ := List.forall_mem_cons.mp hitems
        obtain ⟨hloose', hrest'⟩ := ih hitems
        rw [List.flatMap_cons, List.append_assoc, List.append_assoc]
        exact ⟨hsep.loose _, hsep.scanned (hqs _ hloose' hrest')⟩
    rw [Piece.listed, List.append_assoc]
    exact hps _ htail.1 htail.2

end Piece

/-- Every symbol in the table but the slash is a lexeme. -/
theorem Node.IsInfix.isSymbol {x : String} (h : IsInfix x) : isSymbol x.toList = true := by
  have hall : ∀ e ∈ Precedence.table, e.1 = "/" ∨ Lexeme.isSymbol e.1.toList = true := by decide
  obtain ⟨p, hp⟩ := Option.isSome_iff_exists.mp h.listed
  obtain ⟨l, r, htable, _⟩ := List.lookup_eq_some_iff.mp hp
  have hmem : (x, p) ∈ Precedence.table := by
    rw [htable]
    simp
  exact (hall (x, p) hmem).resolve_left h.ne_slash

open Piece in
/-- Every well-formed tree is written so that it is scanned as the words it is written with. -/
theorem Node.WellFormed.legible (numerals : Numerals) {n : Node} (h : n.WellFormed) :
    Legible numerals n.pieces := by
  induction h with
  | number hv =>
    intro rest hloose hrest
    obtain ⟨w, hw⟩ := hv
    exact .word (numerals.denotes hw) nofun hloose hrest
  | string =>
    intro rest hloose hrest
    exact .string _ hloose hrest
  | @bool b s =>
    intro rest hloose hrest
    cases b with
    | false => exact .key (by decide) (by decide) hloose hrest
    | true => exact .key (by decide) (by decide) hloose hrest
  | reference hx =>
    intro rest hloose hrest
    exact .name hx hloose hrest
  | operator hx =>
    intro rest hloose hrest
    exact .symbol hx hloose hrest
  | assign _ _ ihl ihr =>
    intro rest hloose hrest
    -- From the right: the right operand, the symbol between blanks, the left operand.
    have hright := Scanned.blank (ihr.inParens hrest)
    have hsymbol := Scanned.blank (.symbol (x := assignSymbol) (by decide) (loose_blank _) hright)
    simp only [pieces, List.cons_append, List.append_assoc]
    exact ihl.inParens hsymbol
  | binary hx _ _ ihl ihr =>
    intro rest hloose hrest
    have hright := Scanned.blank (ihr.inParens hrest)
    have hsymbol := Scanned.blank (.symbol hx.isSymbol (loose_blank _) hright)
    simp only [pieces, List.cons_append, List.append_assoc]
    exact ihl.inParens hsymbol
  | ifThen _ _ ihc ihp =>
    intro rest hloose hrest
    have hpositive := Scanned.blank (ihp.inParens hrest)
    have hthen := Scanned.key (x := "then") (by decide) (by decide) (loose_blank _) hpositive
    have hcondition := Scanned.blank (ihc.inParens (.blank hthen))
    simp only [pieces, List.cons_append, List.append_assoc]
    exact .key (by decide) (by decide) (loose_blank _) hcondition
  | ifElse _ _ _ ihc ihp ihn =>
    intro rest hloose hrest
    have hnegative := Scanned.blank (ihn.inParens hrest)
    have helse := Scanned.key (x := "else") (by decide) (by decide) (loose_blank _) hnegative
    have hpositive := Scanned.blank (ihp.inParens (.blank helse))
    have hthen := Scanned.key (x := "then") (by decide) (by decide) (loose_blank _) hpositive
    have hcondition := Scanned.blank (ihc.inParens (.blank hthen))
    simp only [pieces, List.cons_append, List.append_assoc]
    exact .key (by decide) (by decide) (loose_blank _) hcondition
  | @lambda params b s hparams _ ihb =>
    intro rest hloose hrest
    have hnames : Legible numerals
        (listed [mark ",", .blank] (params.map fun x => [.word (.name x)])) := by
      apply Legible.listed (separates_mark_blank (by decide))
      intro ps hps
      obtain ⟨x, hx, rfl⟩ := List.mem_map.mp hps
      intro rest hloose hrest
      exact .name (hparams x hx) hloose hrest
    have hclose := Scanned.mark (x := ")") (by decide) (.blank (ihb.inParens hrest))
    have hlist := hnames _ (loose_mark (by decide) _) hclose
    have hopen := Scanned.blank (.mark (x := "(") (by decide) hlist)
    simp only [pieces, List.cons_append, List.append_assoc]
    exact .key (by decide) (by decide) (loose_blank _) hopen
  | @call f args s _ _ ihf ihargs =>
    intro rest hloose hrest
    have hargs : Legible numerals (listed [mark ",", .blank] (groups args)) := by
      apply Legible.listed (separates_mark_blank (by decide))
      rw [groups_eq_map]
      intro ps hps
      obtain ⟨a, ha, rfl⟩ := List.mem_map.mp hps
      intro rest _ hrest
      exact (ihargs a ha).inParens hrest
    have hclose := Scanned.mark (x := ")") (by decide) hrest
    have hlist := hargs _ (loose_mark (by decide) _) hclose
    simp only [pieces, List.cons_append, List.append_assoc]
    exact ihf.inParens (.mark (by decide) hlist)
  | @program body s _ _ ih =>
    intro rest hloose hrest
    have hbody : Legible numerals (listed [mark ";", .blank] (groups body)) := by
      apply Legible.listed (separates_mark_blank (by decide))
      rw [groups_eq_map]
      intro ps hps
      obtain ⟨e, he, rfl⟩ := List.mem_map.mp hps
      intro rest _ hrest
      exact (ih e he).inParens hrest
    have hclose := Scanned.blank (.mark (x := "\x7d") (by decide) hrest)
    have hlist := Scanned.blank (hbody _ (loose_blank _) hclose)
    simp only [pieces, List.cons_append, List.append_assoc]
    exact .mark (by decide) hlist

end LambdaReader
