import LambdaReader.Proofs.ReadBack

/-!
# `Proofs.Yield` — the tree keeps the tokens it was read from

Identifiers, numbers, strings and operators get into the tree with their values, and the keywords `if`,
`lambda` and `true` each leave a node in their place. `Node.trace` reads both off a tree again, in the
order of the source; all other tokens leave nothing behind.

`Accounts` compares a stretch of tokens with the trees there were before it and those there are after
it, and is closed under putting stretches one after another. The tokens of every reading are `Accounted`
for, with a lemma for each rule: a token is entered where a rule takes it, and nowhere else.

## Main result
- `Source.tokens_of_parse`: what a source is read as against its tokens.
-/

namespace LambdaReader

open TokenSource

/-! ## The words of a tree -/

namespace Word

/-- The word gets into a tree with its value. -/
def isKept (w : Word) : Bool :=
  w.kind ∈ [TokenKind.identifier, TokenKind.number, TokenKind.string, TokenKind.operator]

/-- The word is a keyword that leaves a node in its place. -/
def isFormative (w : Word) : Bool := w ∈ [key "if", key "lambda", key "true"]

/-- The word can be read off a tree. -/
def isTraced (w : Word) : Bool := w.isKept || w.isFormative

@[simp] theorem isKept_name (x : String) : (name x).isKept = true := by simp [isKept, name]

@[simp] theorem isKept_symbol (x : String) : (symbol x).isKept = true := by simp [isKept, symbol]

@[simp] theorem isKept_key (x : String) : (key x).isKept = false := by simp [isKept, key]

/-- What gets into a tree with its value is no keyword. -/
theorem isFormative_of_isKept {w : Word} (h : w.isKept = true) : w.isFormative = false := by
  apply Bool.eq_false_iff.mpr
  intro hw
  simp only [isFormative, List.mem_cons, List.not_mem_nil, or_false, decide_eq_true_eq] at hw
  rcases hw with rfl | rfl | rfl <;> cases h

@[simp] theorem isFormative_name (x : String) : (name x).isFormative = false :=
  isFormative_of_isKept (isKept_name x)

@[simp] theorem isFormative_symbol (x : String) : (symbol x).isFormative = false :=
  isFormative_of_isKept (isKept_symbol x)

@[simp] theorem isFormative_if : (key "if").isFormative = true := by simp [isFormative]

@[simp] theorem isFormative_lambda : (key "lambda").isFormative = true := by simp [isFormative]

/-- Marks of punctuation are only found in the text. -/
theorem isTraced_mark (x : String) : (mark x).isTraced = false := by
  simp [isTraced, isKept, isFormative, mark, key]

/-- Keywords are found in a tree only where they leave a node. -/
theorem isTraced_key (x : String) : (key x).isTraced = (key x).isFormative := by simp [isTraced]

theorem isTraced_then : (key "then").isTraced = false := by
  rw [isTraced_key]
  simp [isFormative, key]

theorem isTraced_else : (key "else").isTraced = false := by
  rw [isTraced_key]
  simp [isFormative, key]

@[simp] theorem isFormative_true : (key "true").isFormative = true := by simp [isFormative]

end Word

namespace Node

mutual

/-- The words a tree is made of, from left to right, an operator between its operands. -/
def yield : Node → List Word
  | number v _ => [⟨.number, .number v⟩]
  | string v _ => [⟨.string, .text v⟩]
  | bool _ _ => []
  | reference x _ => [.name x]
  | operator x _ => [.symbol x]
  | assign l r _ => yield l ++ .symbol assignSymbol :: yield r
  | binary x l r _ => yield l ++ .symbol x :: yield r
  | ifThen c p _ => yield c ++ yield p
  | ifElse c p n _ => yield c ++ (yield p ++ yield n)
  | lambda params b _ => params.map Word.name ++ yield b
  | call f args _ => yield f ++ yieldAll args
  | program body _ => yieldAll body

/-- The words of several trees in turn. -/
def yieldAll : List Node → List Word
  | [] => []
  | n :: ns => yield n ++ yieldAll ns

end

/-- The keyword that a node stands in the place of. -/
def keyword? : Node → Option Word
  | ifThen .. | ifElse .. => some (.key "if")
  | lambda .. => some (.key "lambda")
  | bool b _ => if b then some (.key "true") else none
  | number .. | string .. | reference .. | operator .. | assign .. | binary .. | call .. | program .. =>
    none

/-- The node is the literal of truth. -/
def isTrue : Node → Bool
  | bool b _ => b
  | _ => false

mutual

/-- The words a tree is made of, and before its parts the keyword that it stands in the place of. -/
def trace : Node → List Word
  | number v _ => [⟨.number, .number v⟩]
  | string v _ => [⟨.string, .text v⟩]
  | bool b _ => if b then [.key "true"] else []
  | reference x _ => [.name x]
  | operator x _ => [.symbol x]
  | assign l r _ => trace l ++ .symbol assignSymbol :: trace r
  | binary x l r _ => trace l ++ .symbol x :: trace r
  | ifThen c p _ => .key "if" :: (trace c ++ trace p)
  | ifElse c p n _ => .key "if" :: (trace c ++ (trace p ++ trace n))
  | lambda params b _ => .key "lambda" :: (params.map Word.name ++ trace b)
  | call f args _ => trace f ++ traceAll args
  | program body _ => traceAll body

/-- The words of several trees in turn. -/
def traceAll : List Node → List Word
  | [] => []
  | n :: ns => trace n ++ traceAll ns

end

mutual

/-- Without its keywords the trace of a tree is its yield. -/
theorem filter_isKept_trace : ∀ n : Node, n.trace.filter Word.isKept = n.yield
  | number v _ => rfl
  | string v _ => rfl
  | bool b _ => by cases b <;> rfl
  | reference x _ => rfl
  | operator x _ => rfl
  | assign l r _ => by
    simp [trace, yield, filter_isKept_trace l, filter_isKept_trace r]
  | binary x l r _ => by
    simp [trace, yield, filter_isKept_trace l, filter_isKept_trace r]
  | ifThen c p _ => by
    simp [trace, yield, filter_isKept_trace c, filter_isKept_trace p]
  | ifElse c p n _ => by
    simp [trace, yield, filter_isKept_trace c, filter_isKept_trace p, filter_isKept_trace n]
  | lambda params b _ => by
    simp [trace, yield, filter_isKept_trace b, List.filter_map, Function.comp_def]
  | call f args _ => by
    simp [trace, yield, filter_isKept_trace f, filter_isKept_traceAll args]
  | program body _ => by
    simp [trace, yield, filter_isKept_traceAll body]

theorem filter_isKept_traceAll : ∀ ns : List Node, (traceAll ns).filter Word.isKept = yieldAll ns
  | [] => rfl
  | n :: ns => by
    simp [traceAll, yieldAll, filter_isKept_trace n, filter_isKept_traceAll ns]

end

mutual

/-- The keywords in the trace of a tree are those that its nodes stand in the place of. -/
theorem filter_isFormative_trace :
    ∀ n : Node, n.trace.filter Word.isFormative = n.walk.filterMap keyword?
  | number v _ => rfl
  | string v _ => rfl
  | bool b _ => by cases b <;> rfl
  | reference x _ => rfl
  | operator x _ => rfl
  | assign l r _ => by
    simp [trace, walk, List.filterMap_cons, keyword?, filter_isFormative_trace l, filter_isFormative_trace r]
  | binary x l r _ => by
    simp [trace, walk, List.filterMap_cons, keyword?, filter_isFormative_trace l, filter_isFormative_trace r]
  | ifThen c p _ => by
    simp [trace, walk, keyword?, filter_isFormative_trace c, filter_isFormative_trace p]
  | ifElse c p n _ => by
    simp [trace, walk, keyword?, filter_isFormative_trace c, filter_isFormative_trace p,
      filter_isFormative_trace n]
  | lambda params b _ => by
    simp [trace, walk, keyword?, filter_isFormative_trace b, List.filter_map, Function.comp_def]
  | call f args _ => by
    simp [trace, walk, List.filterMap_cons, keyword?, filter_isFormative_trace f, filter_isFormative_traceAll args]
  | program body _ => by
    simp [trace, walk, List.filterMap_cons, keyword?, filter_isFormative_traceAll body]

theorem filter_isFormative_traceAll :
    ∀ ns : List Node, (traceAll ns).filter Word.isFormative = (walkAll ns).filterMap keyword?
  | [] => rfl
  | n :: ns => by
    simp [traceAll, walkAll, filter_isFormative_trace n, filter_isFormative_traceAll ns]

end

@[simp] theorem traceAll_append (ms ns : List Node) : traceAll (ms ++ ns) = traceAll ms ++ traceAll ns := by
  induction ms with
  | nil => rfl
  | cons m ms ih => simp [traceAll, ih]

@[simp] theorem walkAll_append (ms ns : List Node) : walkAll (ms ++ ns) = walkAll ms ++ walkAll ns := by
  induction ms with
  | nil => rfl
  | cons m ms ih => simp [walkAll, ih]

end Node

/-! ## Accounts -/

/-- The words of the tokens that can be read off a tree. -/
def Token.traced (ts : List Token) : List Word := (ts.map Token.word).filter Word.isTraced

/-- The tokens make up for the difference between the trees there were before and those there are after
them: in the words read off them, and in the number of nodes at least. -/
structure Accounts (before : List Node) (ts : List Token) (after : List Node) : Prop where
  trace : Node.traceAll after = Node.traceAll before ++ Token.traced ts
  size : (Node.walkAll after).length ≤ (Node.walkAll before).length + ts.length

namespace Token

variable {t : Token} {ts us : List Token}

@[simp] theorem traced_append : traced (ts ++ us) = traced ts ++ traced us := by simp [traced]

theorem traced_cons_of_isTraced (h : t.word.isTraced = true) : traced (t :: ts) = t.word :: traced ts := by
  simp [traced, h]

theorem traced_cons_of_not_isTraced (h : t.word.isTraced = false) : traced (t :: ts) = traced ts := by
  simp [traced, h]

/-- Words of a class that is read off a tree are all there. -/
theorem filter_traced {p : Word → Bool} (hp : ∀ w, p w = true → w.isTraced = true) (ts : List Token) :
    (traced ts).filter p = (ts.map Token.word).filter p := by
  rw [traced, List.filter_filter]
  apply List.filter_congr
  intro w _
  cases hw : p w with
  | false => rfl
  | true => exact hp w hw

/-- What stands for a text is the word of that text. -/
theorem word_of_is {kind : TokenKind} {x : String} (h : t.is kind x = true) :
    t.word = ⟨kind, .text x⟩ := by
  rw [Token.is_eq_word] at h
  exact of_decide_eq_true h

end Token

namespace Accounts

open Node

variable {before between after ms ns : List Node} {t : Token} {ts us : List Token}

theorem nil (ns : List Node) : Accounts ns [] ns := ⟨by simp [Token.traced], Nat.le_refl _⟩

theorem trans (h : Accounts before ts between) (h' : Accounts between us after) :
    Accounts before (ts ++ us) after := by
  have hsize := h.size
  have hsize' := h'.size
  refine ⟨?_, ?_⟩
  · rw [h'.trace, h.trace, Token.traced_append, List.append_assoc]
  · rw [List.length_append]
    omega

/-- Trees that are there already stay in front. -/
theorem frame (ms : List Node) (h : Accounts [] ts ns) : Accounts ms ts (ms ++ ns) := by
  have hsize := h.size
  refine ⟨?_, ?_⟩
  · rw [traceAll_append, h.trace]
    rfl
  · rw [walkAll_append, List.length_append]
    exact Nat.add_le_add_left (by simpa [walkAll] using hsize) _

/-- A token that leaves nothing behind. -/
theorem silent (h : t.word.isTraced = false) : Accounts [] [t] [] := by
  refine ⟨?_, Nat.le_add_right _ _⟩
  rw [Token.traced_cons_of_not_isTraced h]
  rfl

/-! ### Trees that come about -/

variable {a b c f p q l r : Node} {x : String} {span : Option Span} {args body : List Node}

/-- A token that leaves a node without parts. -/
theorem single (htrace : a.trace = Token.traced [t]) (hsize : a.walk.length = 1) : Accounts [] [t] [a] :=
  ⟨by simp [traceAll, htrace], by simp [walkAll, hsize]⟩

/-- An operator goes between what was read before it and its right operand. -/
theorem joined (ht : t.word = .symbol x) (h : Accounts [] ts [r]) :
    Accounts [l] (t :: ts) [.joined x l r] := by
  have htrace := h.trace
  have hsize := h.size
  have htraced : Token.traced (t :: ts) = .symbol x :: Token.traced ts := by
    rw [Token.traced_cons_of_isTraced (by simp [ht, Word.isTraced]), ht]
  unfold Node.joined
  split
  · next hx =>
    subst hx
    constructor
    · simpa [traceAll, Node.trace, htraced] using htrace
    · simp [walkAll, walk] at hsize ⊢
      omega
  · constructor
    · simpa [traceAll, Node.trace, htraced] using htrace
    · simp [walkAll, walk] at hsize ⊢
      omega

theorem called (ht : t.word.isTraced = false) (h : Accounts [] ts args) (s : Spot) :
    Accounts [f] (t :: ts) [.called f args s] := by
  have htrace := h.trace
  have hsize := h.size
  constructor
  · simpa [Node.called, traceAll, Node.trace, Token.traced_cons_of_not_isTraced ht] using htrace
  · simp [Node.called, walkAll, walk] at hsize ⊢
    omega

/-- The opening mark makes up for the node of a block, if there is one. -/
theorem blocked (ht : t.word.isTraced = false) (h : Accounts [] ts body) :
    Accounts [] (t :: ts) [.blocked body span] := by
  have htrace := h.trace
  have hsize := h.size
  match body with
  | [] =>
    constructor
    · simpa [Node.blocked, traceAll, Node.trace, Token.traced_cons_of_not_isTraced ht] using htrace
    · simp [Node.blocked, walkAll, walk]
  | [n] =>
    constructor
    · simpa [Node.blocked, traceAll, Token.traced_cons_of_not_isTraced ht] using htrace
    · simp [Node.blocked, walkAll] at hsize ⊢
      omega
  | m :: n :: ns =>
    constructor
    · simpa [Node.blocked, traceAll, Node.trace, Token.traced_cons_of_not_isTraced ht] using htrace
    · simp [Node.blocked, walkAll, walk] at hsize ⊢
      omega

theorem ifThen (ht : t.word = .key "if") (h : Accounts [] ts [c, p]) :
    Accounts [] (t :: ts) [.ifThen c p span] := by
  have htrace := h.trace
  have hsize := h.size
  constructor
  · rw [Token.traced_cons_of_isTraced (by simp [ht, Word.isTraced]), ht]
    simpa [traceAll, Node.trace] using htrace
  · simp [walkAll, walk] at hsize ⊢
    omega

theorem ifElse (ht : t.word = .key "if") (h : Accounts [] ts [c, p, q]) :
    Accounts [] (t :: ts) [.ifElse c p q span] := by
  have htrace := h.trace
  have hsize := h.size
  constructor
  · rw [Token.traced_cons_of_isTraced (by simp [ht, Word.isTraced]), ht]
    simpa [traceAll, Node.trace] using htrace
  · simp [walkAll, walk] at hsize ⊢
    omega

theorem lambda {params : List String} (ht : t.word = .key "lambda")
    (hus : Token.traced us = params.map Word.name) (h : Accounts [] ts [b]) :
    Accounts [] (t :: (us ++ ts)) [.lambda params b span] := by
  have htrace := h.trace
  have hsize := h.size
  constructor
  · rw [Token.traced_cons_of_isTraced (by simp [ht, Word.isTraced]), ht, Token.traced_append, hus]
    simpa [traceAll, Node.trace] using htrace
  · simp [walkAll, walk] at hsize ⊢
    omega

end Accounts

/-! ### Single tokens -/

/-- A lexeme that is no number is the word of its text. -/
theorem Token.IsLexeme.word {t : Token} (h : t.IsLexeme) (hk : t.kind ≠ .number) :
    t.word = ⟨t.kind, .text t.text⟩ := by
  obtain ⟨kind, lexeme, value, location⟩ := t
  unfold Token.IsLexeme at h
  generalize lexeme.toList = cs at h
  cases h with
  | number => exact absurd rfl hk
  | string | keyword | identifier | punctuation | operator => rfl

/-- A token that is a node by itself is the word of that node. -/
theorem Token.IsLexeme.accounts {t : Token} {a : Node} (h : t.IsLexeme) (ha : t.leaf? = some a) :
    Accounts [] [t] [a] := by
  have kept (w : Word) (hw : t.word = w) (hkept : w.isKept = true) : [w] = Token.traced [t] := by
    rw [Token.traced_cons_of_isTraced (by simp [hw, Word.isTraced, hkept]), hw]
    rfl
  have texted {kind : TokenKind} (hk : t.kind = kind) (hnumber : kind ≠ .number)
      (hkept : (⟨kind, .text t.text⟩ : Word).isKept = true) : [⟨kind, .text t.text⟩] = Token.traced [t] := by
    subst hk
    exact kept _ (h.word hnumber) hkept
  unfold Token.leaf? at ha
  cases hk : t.kind with
  | punctuation => rw [hk] at ha; cases ha
  | keyword => rw [hk] at ha; cases ha
  | identifier =>
    rw [hk] at ha
    obtain rfl := Option.some.inj ha
    exact .single (texted hk nofun (by simp [Word.isKept])) rfl
  | string =>
    rw [hk] at ha
    obtain rfl := Option.some.inj ha
    exact .single (texted hk nofun (by simp [Word.isKept])) rfl
  | operator =>
    rw [hk] at ha
    obtain rfl := Option.some.inj ha
    exact .single (texted hk nofun (by simp [Word.isKept])) rfl
  | number =>
    rw [hk] at ha
    obtain ⟨v, hv, rfl⟩ := Option.map_eq_some_iff.mp ha
    obtain ⟨w, hw⟩ := h.number hk hv
    have hword : t.word = ⟨.number, .number v⟩ := by
      obtain ⟨kind, lexeme, value, location⟩ := t
      obtain rfl : kind = .number := hk
      unfold Token.IsLexeme at h
      generalize lexeme.toList = cs at h
      cases h
      obtain rfl := Option.some.inj hv
      rfl
    exact .single (kept _ hword (by simp [Word.isKept])) rfl

/-- The keyword of a truth value is traced if it is that of truth. -/
theorem Accounts.truth {t : Token} {b : Bool} {span : Option Span}
    (ht : t.word = .key (Node.boolWord b)) : Accounts [] [t] [.bool b span] := by
  refine .single ?_ rfl
  cases b with
  | true =>
    have htraced : t.word.isTraced = true := by simp [ht, Word.isTraced, Node.boolWord]
    rw [Token.traced_cons_of_isTraced htraced, ht]
    rfl
  | false =>
    have htraced : t.word.isTraced = false := by
      rw [ht, Word.isTraced_key]
      simp [Word.isFormative, Word.key, Node.boolWord]
    rw [Token.traced_cons_of_not_isTraced htraced]
    rfl

namespace Spot

variable {s s' : Spot}

theorem Passes.word {kind : TokenKind} {x : String} (h : s.Passes kind x s') :
    ∃ t : Token, t.word = ⟨kind, .text x⟩ ∧ s.Takes [t] s' := by
  obtain ⟨t, ht, hts⟩ := h.takes
  exact ⟨t, Token.word_of_is ht, hts⟩

/-- A mark of punctuation leaves nothing behind. -/
theorem Passes.mark {x : String} (h : s.Passes .punctuation x s') :
    ∃ t : Token, t.word.isTraced = false ∧ s.Takes [t] s' := by
  obtain ⟨t, ht, hts⟩ := h.word
  refine ⟨t, ?_, hts⟩
  rw [ht]
  exact Word.isTraced_mark x

theorem Lexemes.traced_name {x : String} (h : s.Lexemes) (hx : s.Names x s') :
    ∃ t : Token, s.Takes [t] s' ∧ Token.traced [t] = [Word.name x] := by
  obtain ⟨t, hk, rfl, ht⟩ := hx.takes
  have hmem : t ∈ s.rest := by rw [ht.1]; exact List.mem_cons_self
  have hword : t.word = Word.name t.text := by
    rw [(h t hmem).word (by simp [hk]), hk]
    rfl
  refine ⟨t, ht, ?_⟩
  rw [Token.traced_cons_of_isTraced (by simp [hword, Word.isTraced]), hword]
  rfl

/-- Of a list of parameters the names can be read off, and nothing else. -/
theorem Lexemes.traced_params {o : ParseOptions} {stop separator : String} {first : Bool}
    {xs : List String} (h : s.Lexemes) (hxs : Sequence o Names stop separator first s xs s') :
    ∃ ts, s.Takes ts s' ∧ Token.traced ts = xs.map Word.name := by
  induction hxs with
  | close hstop =>
    obtain ⟨t, ht, hts⟩ := hstop.mark
    exact ⟨[t], hts, Token.traced_cons_of_not_isTraced ht⟩
  | trailing _ hsep hstop =>
    obtain ⟨t, ht, hts⟩ := hsep.mark
    obtain ⟨u, hu, hus⟩ := hstop.mark
    refine ⟨[t] ++ [u], hts.append hus, ?_⟩
    rw [Token.traced_append, Token.traced_cons_of_not_isTraced ht, Token.traced_cons_of_not_isTraced hu]
    rfl
  | first hx _ ih =>
    obtain ⟨t, ht, hname⟩ := h.traced_name hx
    obtain ⟨ts, hts, hnames⟩ := ih (h.names hx).2
    exact ⟨[t] ++ ts, ht.append hts, by rw [Token.traced_append, hname, hnames]; rfl⟩
  | more hsep hx _ ih =>
    obtain ⟨u, hu, hus⟩ := hsep.mark
    obtain ⟨t, ht, hname⟩ := (h.passes hsep).traced_name hx
    obtain ⟨ts, hts, hnames⟩ := ih ((h.passes hsep).names hx).2
    refine ⟨[u] ++ ([t] ++ ts), hus.append (ht.append hts), ?_⟩
    rw [List.singleton_append, Token.traced_cons_of_not_isTraced hu, Token.traced_append, hname, hnames]
    rfl

end Spot

/-! ## Every reading accounts for its tokens -/

/-- The tokens from one place to another account for the trees that come about there. -/
def Accounted (before : List Node) (s : Spot) (after : List Node) (s' : Spot) : Prop :=
  ∃ ts, s.Takes ts s' ∧ Accounts before ts after

namespace Accounted

variable {o : ParseOptions} {s s₁ s₂ s₃ s₄ s₅ s' : Spot} {x : String} {before ms ns args body : List Node}
  {l r m c p q b f : Node}

theorem nil (ns : List Node) (s : Spot) : Accounted ns s ns s := ⟨[], .nil s, .nil ns⟩

theorem trans (h : Accounted before s ms s₁) (h' : Accounted ms s₁ ns s') : Accounted before s ns s' := by
  obtain ⟨ts, hts, hms⟩ := h
  obtain ⟨us, hus, hns⟩ := h'
  exact ⟨_, hts.append hus, hms.trans hns⟩

theorem append (h : Accounted before s ms s₁) (h' : Accounted [] s₁ ns s') :
    Accounted before s (ms ++ ns) s' := by
  obtain ⟨us, hus, hns⟩ := h'
  exact h.trans ⟨us, hus, hns.frame ms⟩

theorem of_mark (h : s.Passes .punctuation x s') : Accounted [] s [] s' := by
  obtain ⟨t, ht, hts⟩ := h.mark
  exact ⟨[t], hts, .silent ht⟩

theorem of_then (h : s.Then s') : Accounted [] s [] s' := by
  cases h with
  | block => exact .nil [] s
  | word h =>
    obtain ⟨t, ht, hts⟩ := h.word
    refine ⟨[t], hts, .silent ?_⟩
    rw [ht]
    exact Word.isTraced_then

theorem of_else (h : s.Passes .keyword "else" s') : Accounted [] s [] s' := by
  obtain ⟨t, ht, hts⟩ := h.word
  refine ⟨[t], hts, .silent ?_⟩
  rw [ht]
  exact Word.isTraced_else

theorem of_leaf? {last : Option Token} {t : Token} {rest : List Token} (ht : t.IsLexeme)
    (h : t.leaf? = some m) : Accounted [] ⟨last, t :: rest⟩ [m] ⟨some t, rest⟩ :=
  ⟨[t], .one last t rest, ht.accounts h⟩

theorem truth {b : Bool} {span : Option Span} (h : s.Passes .keyword (Node.boolWord b) s') :
    Accounted [] s [.bool b span] s' := by
  obtain ⟨t, ht, hts⟩ := h.word
  exact ⟨[t], hts, .truth ht⟩

/-- An operator is a word of its own; it goes between its operands. -/
theorem folded {last : Option Token} {t : Token} {rest : List Token} (ht : t.IsLexeme)
    (hk : t.kind = .operator) (h : Accounted [] ⟨some t, rest⟩ [r] s') :
    Accounted [l] ⟨last, t :: rest⟩ [.joined t.text l r] s' := by
  obtain ⟨ts, hts, hright⟩ := h
  have hword : t.word = .symbol t.text := by
    rw [ht.word (by simp [hk]), hk]
    rfl
  exact ⟨_, (Spot.Takes.one last t rest).append hts, Accounts.joined hword hright⟩

theorem called (hopen : s.Passes .punctuation "(" s₁) (h : Accounted [] s₁ args s') :
    Accounted [f] s [.called f args s'] s' := by
  obtain ⟨t, ht, hmark⟩ := hopen.mark
  obtain ⟨ts, hts, hargs⟩ := h
  exact ⟨_, hmark.append hts, .called ht hargs s'⟩

theorem blocked {span : Option Span} (hopen : s.Passes .punctuation "\x7b" s₁)
    (h : Accounted [] s₁ body s') : Accounted [] s [.blocked body span] s' := by
  obtain ⟨t, ht, hmark⟩ := hopen.mark
  obtain ⟨ts, hts, hbody⟩ := h
  exact ⟨_, hmark.append hts, .blocked ht hbody⟩

theorem ifThen {span : Option Span} (hif : s.Passes .keyword "if" s₁) (hc : Accounted [] s₁ [c] s₂)
    (hthen : s₂.Then s₃) (hp : Accounted [] s₃ [p] s') : Accounted [] s [.ifThen c p span] s' := by
  obtain ⟨t, ht, hword⟩ := hif.word
  obtain ⟨ts, hts, hparts⟩ := (hc.append (of_then hthen)).append hp
  exact ⟨_, hword.append hts, .ifThen ht hparts⟩

theorem ifElse {span : Option Span} (hif : s.Passes .keyword "if" s₁) (hc : Accounted [] s₁ [c] s₂)
    (hthen : s₂.Then s₃) (hp : Accounted [] s₃ [p] s₄) (helse : s₄.Passes .keyword "else" s₅)
    (hq : Accounted [] s₅ [q] s') : Accounted [] s [.ifElse c p q span] s' := by
  obtain ⟨t, ht, hword⟩ := hif.word
  have hbranches := ((hc.append (of_then hthen)).append hp).append (of_else helse)
  obtain ⟨ts, hts, hparts⟩ := hbranches.append hq
  exact ⟨_, hword.append hts, .ifElse ht hparts⟩

theorem lambda {params : List String} {stop separator : String} {span : Option Span}
    (hs : s₂.Lexemes) (hword : s.Passes .keyword "lambda" s₁) (hopen : s₁.Passes .punctuation "(" s₂)
    (hparams : Sequence o Spot.Names stop separator true s₂ params s₃) (hb : Accounted [] s₃ [b] s') :
    Accounted [] s [.lambda params b span] s' := by
  obtain ⟨t, ht, hkey⟩ := hword.word
  obtain ⟨u, hu, hmark⟩ := hopen.mark
  obtain ⟨us, hus, hnames⟩ := hs.traced_params hparams
  obtain ⟨bs, hbs, hbody⟩ := hb
  have hlist : Token.traced ([u] ++ us) = params.map Word.name := by
    rw [Token.traced_append, Token.traced_cons_of_not_isTraced hu, hnames]
    rfl
  refine ⟨t :: (([u] ++ us) ++ bs), hkey.append ((hmark.append hus).append hbs), ?_⟩
  exact .lambda ht hlist hbody

end Accounted

/-- The trees that the task starts from. -/
def Task.given : Task → List Node
  | operators _ left _ => [left]
  | suffix _ callee => [callee]
  | _ => []

/-- The tokens of a reading make up for the difference between the trees it starts from and those it
gives. -/
theorem Reads.accounted {o : ParseOptions} {task : Task} {s s' : Spot} {ns : List Node}
    (h : Reads o task s ns s') (hs : s.Lexemes) : Accounted task.given s ns s' := by
  induction h with
  | done => exact .nil [] _
  | settled | bare => exact .nil [_] _
  | last _ _ ih => exact ih hs
  | next he hsep _ ihe ih =>
    have hs₁ := hs.reads he
    exact (ihe hs).append ((Accounted.of_mark hsep).append (ih (hs₁.passes hsep)))
  | expression ha ho _ iha iho ihs =>
    have hs₁ := hs.reads ha
    exact ((iha hs).trans (iho hs₁)).trans (ihs (hs₁.reads ho))
  | operand ha _ iha iho => exact (iha hs).trans (iho (hs.reads ha))
  | fold ht hr _ ihr iho =>
    have hs₁ := hs.takes (.one _ _ _)
    exact (Accounted.folded (hs _ List.mem_cons_self) ht.1 (ihr hs₁)).trans (iho (hs₁.reads hr))
  | atom hp _ ihp ihs => exact (ihp hs).trans (ihs (hs.reads hp))
  | call hopen _ ih => exact .called hopen (ih (hs.passes hopen))
  | group hopen _ hclose ih =>
    exact ((Accounted.of_mark hopen).append (ih (hs.passes hopen))).append (.of_mark hclose)
  | block hopen _ ih => exact .blocked hopen (ih (hs.passes hopen))
  | ifThen hif hc hthen _ _ ihc ihp =>
    have hs₁ := hs.passes hif
    exact .ifThen hif (ihc hs₁) hthen (ihp ((hs₁.reads hc).then hthen))
  | ifElse hif hc hthen hp helse _ ihc ihp ihq =>
    have hs₁ := hs.passes hif
    have hs₂ := (hs₁.reads hc).then hthen
    exact .ifElse hif (ihc hs₁) hthen (ihp hs₂) helse (ihq ((hs₂.reads hp).passes helse))
  | lambda hword hopen hparams _ ihb =>
    have hs₁ := (hs.passes hword).passes hopen
    exact .lambda hs₁ hword hopen hparams (ihb (hs₁.params hparams).2)
  | truth h => exact .truth h
  | leaf ht => exact .of_leaf? (hs _ List.mem_cons_self) ht
  | seqClose hstop => exact .of_mark hstop
  | seqTrailing _ hsep hstop => exact (Accounted.of_mark hsep).append (.of_mark hstop)
  | seqFirst he _ ihe ih => exact (ihe hs).append (ih (hs.reads he))
  | seqMore hsep he _ ihe ih =>
    have hs₁ := hs.passes hsep
    exact (Accounted.of_mark hsep).append ((ihe hs₁).append (ih (hs₁.reads he)))

/-- A program is read to the end of its tokens. -/
theorem Reads.rest_of_statements {o : ParseOptions} {n : Nat} {s s' : Spot} {ns : List Node}
    (h : Reads o (.statements n) s ns s') : s'.rest = [] := by
  generalize htask : Task.statements n = task at h
  induction h with cases htask
  | done hrest => exact hrest
  | last _ hrest => exact hrest
  | next _ _ _ _ ih => exact ih rfl

/-! ## Counting keywords -/

namespace Node

theorem keyword?_eq_if_iff {n : Node} : n.keyword? = some (.key "if") ↔ n.kind = .conditional := by
  cases n with
  | bool b s => cases b <;> simp [keyword?, kind, Word.key]
  | _ => simp [keyword?, kind, Word.key]

theorem keyword?_eq_lambda_iff {n : Node} : n.keyword? = some (.key "lambda") ↔ n.kind = .lambda := by
  cases n with
  | bool b s => cases b <;> simp [keyword?, kind, Word.key]
  | _ => simp [keyword?, kind, Word.key]

theorem keyword?_eq_true_iff {n : Node} : n.keyword? = some (.key "true") ↔ n.isTrue = true := by
  cases n with
  | bool b s => cases b <;> simp [keyword?, isTrue]
  | _ => simp [keyword?, isTrue, Word.key]

/-- A keyword that leaves a node stands in the source as often as such a node stands in the tree. -/
theorem countP_key {n : Node} {ts : List Token} (h : n.trace = Token.traced ts) {x : String}
    (hx : (Word.key x).isFormative = true) :
    ts.countP (·.is .keyword x) = n.walk.countP (fun m => m.keyword? = some (.key x)) := by
  have hfilter : (ts.map Token.word).filter Word.isFormative = n.walk.filterMap keyword? := by
    rw [← filter_isFormative_trace, h, Token.filter_traced]
    intro w hw
    simp [Word.isTraced, hw]
  have hcount := congrArg (List.count (.key x)) hfilter
  rw [List.count_filter hx, List.count_filterMap, List.count_eq_countP, List.countP_map] at hcount
  calc ts.countP (·.is .keyword x)
      = ts.countP ((· == .key x) ∘ Token.word) := by
        apply List.countP_congr
        intro t _
        simp [Token.is_eq_word, Word.is, Word.key]
    _ = n.walk.countP (fun m => m.keyword? = some (.key x)) := by
        rw [hcount]
        apply List.countP_congr
        intro m _
        simp

end Node

/-! ## What a source is read as -/

/-- No token gets lost, comes in twice or changes its place on the way into the tree. -/
theorem Source.tokens_of_parse {s : Source} {o : ParseOptions} {n : Node} (h : s.parse o = .ok n) :
    ∃ ts, s.tokens = .ok ts ∧
      (ts.map Token.word).filter Word.isKept = n.yield ∧
      ts.countP (·.is .keyword "if") = n.walk.countP (·.kind = .conditional) ∧
      ts.countP (·.is .keyword "lambda") = n.walk.countP (·.kind = .lambda) ∧
      ts.countP (·.is .keyword "true") = n.walk.countP Node.isTrue ∧
      n.walk.tail.length ≤ ts.length := by
  obtain ⟨l, hdone⟩ := s.drain_of_parse h
  obtain ⟨body, s', hbody, rfl⟩ := (TokenSource.read_eq_ok_iff hdone n).mp h
  have htokens : s.tokens = .ok (drain s.scanner).1 := by rw [Source.tokens_eq, hdone]
  -- All tokens are taken, so what is accounted for is the whole source.
  obtain ⟨ts, hts, haccounts⟩ := hbody.accounted (Scanner.isLexeme_of_mem_drain s.scanner)
  have hall : (drain s.scanner).1 = ts := by
    have hrest := hts.1
    rw [hbody.rest_of_statements, List.append_nil] at hrest
    exact hrest
  rw [← hall] at haccounts
  generalize (drain s.scanner).1 = ts at htokens haccounts
  set root := Node.program body (some (s'.spanFrom (location s.scanner))) with hroot
  have htrace : root.trace = Token.traced ts := haccounts.trace
  have hkept : (ts.map Token.word).filter Word.isKept = root.yield := by
    rw [← Node.filter_isKept_trace, htrace, Token.filter_traced]
    intro w hw
    simp [Word.isTraced, hw]
  refine ⟨ts, htokens, hkept, ?_, ?_, ?_, ?_⟩
  · simpa only [Node.keyword?_eq_if_iff] using Node.countP_key htrace Word.isFormative_if
  · simpa only [Node.keyword?_eq_lambda_iff] using Node.countP_key htrace Word.isFormative_lambda
  · simpa only [Node.keyword?_eq_true_iff, Bool.decide_eq_true] using
      Node.countP_key htrace Word.isFormative_true
  · simpa [hroot, Node.walk, Node.walkAll, Task.given] using haccounts.size

/-- The law for `f = lambda (x) if x then f(x) else true;`. -/
theorem Source.tokens_of_parse_recursion :
    let s : Source := ⟨"f = lambda (x) if x then f(x) else true;", "x", false⟩
    ∃ n ts, s.parse {} = .ok n ∧ s.tokens = .ok ts ∧
      (ts.map Token.word).filter Word.isKept = n.yield ∧
      ts.countP (·.is .keyword "if") = n.walk.countP (·.kind = .conditional) := by
  intro s
  have hok : (s.parse {}).isOk = true := by decide +kernel
  cases hn : s.parse {} with
  | error e => rw [hn] at hok; cases hok
  | ok n =>
    obtain ⟨ts, hts, hyield, hif, _⟩ := Source.tokens_of_parse hn
    exact ⟨n, ts, rfl, hts, hyield, hif⟩

end LambdaReader
