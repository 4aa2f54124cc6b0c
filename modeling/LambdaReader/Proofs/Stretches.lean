import LambdaReader.Proofs.Reads.Trim
import LambdaReader.Proofs.Brackets

/-!
# `Proofs.Stretches` — the tokens that a node is read from

Every node of a tree is read from a stretch of tokens, and it would be read from this stretch alone. The
span of most nodes goes over the whole stretch. The span of an operator or of a call starts where the span
of its first part starts, and that of an operator ends where the span of its last part ends; parentheses
and braces around these parts belong to the stretch, but not to the span (`Node.Enclosed`).

An operator is folded onto what was read before it, so a reading has to know how that was read: `Leads`
says that whatever is read on from there, up to some end, is one expression with it. With that every rule
gives the stretches of the nodes it makes, whichever part comes first.

## Main results
- `Reads.gives`: brackets around the tokens that a span goes over;
- `Reads.stands`: the stretches of all nodes that are read.
-/

namespace LambdaReader

open Spot Token

/-! ## Brackets around a span -/

namespace Token

/-- Marks that close groups and blocks, one behind the other. A semicolon may stand before the mark that
closes a block. -/
inductive Closers : List Token → Prop where
  | nil : Closers []
  | mark {ts : List Token} {t : Token} : Closers ts → t.IsClosing → Closers (ts ++ [t])
  | trailing {ts : List Token} {t u : Token} :
    Closers ts → t.is .punctuation ";" = true → u.is .punctuation "\x7d" = true → Closers (ts ++ [t, u])

/-- More brackets close than open, if there are any marks. -/
theorem Closers.brackets_neg {ts : List Token} (h : Closers ts) : ts = [] ∨ brackets ts < 0 := by
  induction h with
  | nil => exact .inl rfl
  | @mark ts t _ ht ih =>
    refine .inr ?_
    rw [brackets_append, brackets_cons, bracket_of_closing ht]
    rcases ih with rfl | ih
    · decide
    · simp only [brackets_nil]
      omega
  | @trailing ts t u _ ht hu ih =>
    refine .inr ?_
    rw [brackets_append, brackets_cons, brackets_cons, bracket_of_is ht (.inr (by decide)),
      bracket_of_closing (.inr hu)]
    rcases ih with rfl | ih
    · decide
    · simp only [brackets_nil]
      omega

theorem brackets_of_openers {ts : List Token} (h : ∀ t ∈ ts, t.IsOpening) :
    brackets ts = ts.length := by
  induction ts with
  | nil => rfl
  | cons t ts ih =>
    obtain ⟨ht, hts⟩ := List.forall_mem_cons.mp h
    rw [brackets_cons, bracket_of_opening ht, ih hts, List.length_cons]
    omega

end Token

namespace Node

/-- The span goes from the first of the tokens to the last one. -/
def SpansOver (n : Node) (ts : List Token) : Prop :=
  ∃ t u, ts.head? = some t ∧ ts.getLast? = some u ∧ n.span = some ⟨t.location, u.location⟩

/-- The span goes over the tokens between brackets that open and marks that close. -/
structure Enclosed (n : Node) (opening inner closing : List Token) : Prop where
  opens : ∀ t ∈ opening, t.IsOpening
  spansOver : n.SpansOver inner
  closes : Closers closing

/-- The span goes over the tokens but for brackets around them. -/
def ReadFrom (n : Node) (ts : List Token) : Prop :=
  ∃ opening inner closing, ts = opening ++ (inner ++ closing) ∧ n.Enclosed opening inner closing

variable {n left right callee : Node} {ts us opening inner closing opening' inner' closing' : List Token}

theorem SpansOver.readFrom (h : n.SpansOver ts) : n.ReadFrom ts :=
  ⟨[], ts, [], by simp, nofun, h, .nil⟩

theorem SpansOver.ne_nil (h : n.SpansOver ts) : ts ≠ [] := by
  obtain ⟨t, _, ht, _⟩ := h
  rintro rfl
  cases ht

/-- A bracket before the tokens and marks behind them are brackets around the span. -/
theorem ReadFrom.enclose {t : Token} (h : n.ReadFrom ts) (ht : t.IsOpening)
    (hus : ∀ {vs : List Token}, Closers vs → Closers (vs ++ us)) : n.ReadFrom (t :: (ts ++ us)) := by
  obtain ⟨opening, inner, closing, rfl, hopens, hspan, hcloses⟩ := h
  refine ⟨t :: opening, inner, closing ++ us, by simp, ?_, hspan, hus hcloses⟩
  exact List.forall_mem_cons.mpr ⟨ht, hopens⟩

/-- The span of an operator goes from the first of one operand's tokens to the last of the other's. -/
theorem Enclosed.joined (h : left.Enclosed opening inner closing)
    (h' : right.Enclosed opening' inner' closing') (x : String) (t : Token) :
    (Node.joined x left right).Enclosed opening (inner ++ (closing ++ t :: (opening' ++ inner')))
      closing' where
  opens := h.opens
  spansOver := by
    obtain ⟨a, b, ha, hb, hleft⟩ := h.spansOver
    obtain ⟨c, d, hc, hd, hright⟩ := h'.spansOver
    refine ⟨a, d, ?_, ?_, ?_⟩
    · rw [List.head?_append, ha]
      rfl
    · have hlast : (t :: (opening' ++ inner')).getLast? = some d := by
        rw [← List.cons_append, List.getLast?_append, hd]
        rfl
      rw [List.getLast?_append, List.getLast?_append, hlast]
      rfl
    · rw [Node.joined, hleft, hright]
      split <;> rfl
  closes := h'.closes

/-- The span of a call goes up to the mark that closes its arguments. -/
theorem Enclosed.called (h : callee.Enclosed opening inner closing) {s s' : Spot} (hts : s.Takes ts s')
    (hne : ts ≠ []) (args : List Node) :
    (Node.called callee args s').Enclosed opening (inner ++ (closing ++ ts)) [] where
  opens := h.opens
  spansOver := by
    obtain ⟨a, b, ha, hb, hspan⟩ := h.spansOver
    refine ⟨a, ts.getLast hne, ?_, ?_, ?_⟩
    · rw [List.head?_append, ha]
      rfl
    · rw [List.getLast?_append, List.getLast?_append, List.getLast?_eq_some_getLast hne]
      rfl
    · rw [Node.called, hspan]
      show some (s'.spanFrom a.location) = _
      rw [Spot.spanFrom, hts.last_eq hne]
      rfl
  closes := .nil

end Node

/-- A span from the next token to the last one that is taken goes over the tokens between them. -/
theorem Node.spansOver_of_takes {n : Node} {s s' : Spot} {ts : List Token} (hspan : n.span = s.spanTo s')
    (hts : s.Takes ts s') (hne : ts ≠ []) : n.SpansOver ts := by
  obtain ⟨t, us, rfl⟩ := List.exists_cons_of_ne_nil hne
  refine ⟨t, (t :: us).getLast hne, rfl, List.getLast?_eq_some_getLast hne, ?_⟩
  rw [hspan, Spot.spanTo, hts.1]
  show some (s'.spanFrom t.location) = _
  rw [Spot.spanFrom, hts.last_eq hne]
  rfl

/-! ## What is read is read from its tokens -/

/-- The node that a task starts from is read from these tokens; other tasks start from no tokens. -/
def Task.StartsFrom (us : List Token) : Task → Prop
  | operators _ left _ => left.ReadFrom us
  | suffix _ callee => callee.ReadFrom us
  | _ => us = []

namespace Node

/-- With the tokens `us` before them, the tokens from one place to another are what the node is read from. -/
def Gathers (us : List Token) (s : Spot) (n : Node) (s' : Spot) : Prop :=
  ∃ ts, s.Takes ts s' ∧ n.ReadFrom (us ++ ts)

/-- The node is what stands before the mark that closes a block, which may have a semicolon before it. -/
def GathersItem (s : Spot) (n : Node) (s' : Spot) : Prop :=
  ∃ ts closing, s.Takes (ts ++ closing) s' ∧ n.ReadFrom ts ∧
    ∀ {us}, Closers us → Closers (us ++ closing)

section Rules

variable {o : ParseOptions} {k : Nat} {x : String} {s s₁ s₂ s' : Spot} {m e : Node} {es args body : List Node}

theorem ReadFrom.gathers (h : n.ReadFrom us) (s : Spot) : Gathers us s n s := by
  refine ⟨[], .nil s, ?_⟩
  rwa [List.append_nil]

/-- What starts from a node goes on behind the tokens of that node. -/
theorem Gathers.goOn (h : Gathers us s m s₁) (h' : ∀ {ws}, m.ReadFrom ws → Gathers ws s₁ n s') :
    Gathers us s n s' := by
  obtain ⟨ts, hts, hm⟩ := h
  obtain ⟨vs, hvs, hn⟩ := h' hm
  rw [List.append_assoc] at hn
  exact ⟨_, hts.append hvs, hn⟩

/-- A primary whose span goes from its first token to its last one. -/
theorem gathers_of_spanTo (h : Reads o (.primary k) s [n] s') (hspan : n.span = s.spanTo s') :
    Gathers [] s n s' := by
  obtain ⟨ts, hts, hne⟩ := h.takes
  exact ⟨ts, hts, (spansOver_of_takes hspan hts (hne trivial)).readFrom⟩

theorem Gathers.folded {last : Option Token} {t : Token} {rest : List Token} (hleft : left.ReadFrom us)
    (h : Gathers [] ⟨some t, rest⟩ right s') :
    Gathers us ⟨last, t :: rest⟩ (.joined x left right) s' := by
  obtain ⟨opening, inner, closing, rfl, hleft⟩ := hleft
  obtain ⟨_, hts, opening', inner', closing', rfl, hright⟩ := h
  exact ⟨_, (Takes.one last t rest).append hts, _, _, _, by simp, hleft.joined hright x t⟩

theorem ReadFrom.called (h : callee.ReadFrom us) (hopen : s.Passes .punctuation "(" s₁)
    (hargs : Reads o (.sequence k ")" "," true) s₁ args s') : Gathers us s (.called callee args s') s' := by
  obtain ⟨t, _, ht⟩ := hopen.takes
  obtain ⟨ts, hts, _⟩ := hargs.takes
  obtain ⟨opening, inner, closing, rfl, hcallee⟩ := h
  have htakes := ht.append hts
  exact ⟨_, htakes, _, _, _, by simp, hcallee.called htakes (List.cons_ne_nil t ts) args⟩

theorem Gathers.grouped (hopen : s.Passes .punctuation "(" s₁) (h : Gathers [] s₁ n s₂)
    (hstop : s₂.Passes .punctuation ")" s') : Gathers [] s n s' := by
  obtain ⟨t, ht, htakes⟩ := hopen.takes
  obtain ⟨ts, hts, hn⟩ := h
  obtain ⟨u, hu, hutakes⟩ := hstop.takes
  exact ⟨_, htakes.append (hts.append hutakes), hn.enclose (.inl ht) fun hvs => hvs.mark (.inl hu)⟩

/-- The one item of a block is read from what is between the braces, and the block from all of it. -/
theorem gathers_block (hopen : s.Passes .punctuation "\x7b" s₁)
    (hbody : Reads o (.sequence k "\x7d" ";" true) s₁ body s') (h : ∀ e, body = [e] → GathersItem s₁ e s') :
    Gathers [] s (.blocked body (s.spanTo s')) s' := by
  match body, hbody, h with
  | [], hbody, _ => exact gathers_of_spanTo (.block hopen hbody) rfl
  | _ :: _ :: _, hbody, _ => exact gathers_of_spanTo (.block hopen hbody) rfl
  | [e], _, h =>
    obtain ⟨t, ht, htakes⟩ := hopen.takes
    obtain ⟨ts, closing, hts, he, hclosing⟩ := h e rfl
    exact ⟨_, htakes.append hts, he.enclose (.inr ht) hclosing⟩

/-- Behind a single item there is the closing mark, perhaps behind a separator. -/
theorem Gathers.item (h : Gathers [] s e s₁) (hes : Reads o (.sequence k "\x7d" ";" false) s₁ es s')
    (hone : es = []) : GathersItem s e s' := by
  obtain ⟨ts, hts, he⟩ := h
  cases hes with
  | seqClose hstop =>
    obtain ⟨t, ht, htakes⟩ := hstop.takes
    exact ⟨ts, _, hts.append htakes, he, fun hws => hws.mark (.inr ht)⟩
  | seqTrailing _ hsep hstop =>
    obtain ⟨t, ht, htakes⟩ := hsep.takes
    obtain ⟨u, hu, hutakes⟩ := hstop.takes
    exact ⟨ts, _, hts.append (htakes.append hutakes), he, fun hws => hws.trailing ht hu⟩
  | seqMore => cases hone

end Rules

end Node

/-- What a task gives is read from the tokens that it starts from and those it takes. Of a sequence it
matters only what the single item of a block is read from. -/
def Task.Gives (us : List Token) (s : Spot) (ns : List Node) (s' : Spot) : Task → Prop
  | statements _ => True
  | sequence _ stop separator first =>
    first = true → stop = "\x7d" → separator = ";" → ∀ e, ns = [e] → e.GathersItem s s'
  | _ => ∀ e, ns = [e] → e.Gathers us s s'

open Node in
/-- What is read is read from the tokens that are taken, with those that the reading starts from. -/
theorem Reads.gives {o : ParseOptions} {task : Task} {s s' : Spot} {ns : List Node}
    (h : Reads o task s ns s') {us : List Token} (hus : task.StartsFrom us) :
    task.Gives us s ns s' := by
  induction h generalizing us with
  | done | last | next => trivial
  | expression _ _ _ iha iho ihs =>
    obtain rfl : us = [] := hus
    rintro _ ⟨⟩
    exact ((iha rfl _ rfl).goOn fun hfirst => iho hfirst _ rfl).goOn fun hwhole => ihs hwhole _ rfl
  | operand _ _ iha iho =>
    obtain rfl : us = [] := hus
    rintro _ ⟨⟩
    exact (iha rfl _ rfl).goOn fun hfirst => iho hfirst _ rfl
  | settled | bare =>
    rintro _ ⟨⟩
    exact ReadFrom.gathers hus _
  | fold _ _ _ ihr iho =>
    rintro _ ⟨⟩
    exact (Gathers.folded hus (ihr rfl _ rfl)).goOn fun hjoined => iho hjoined _ rfl
  | atom _ _ ihp ihs =>
    obtain rfl : us = [] := hus
    rintro _ ⟨⟩
    exact (ihp rfl _ rfl).goOn fun hfirst => ihs hfirst _ rfl
  | call hopen hargs =>
    rintro _ ⟨⟩
    exact ReadFrom.called hus hopen hargs
  | group hopen _ hstop ih =>
    obtain rfl : us = [] := hus
    rintro _ ⟨⟩
    exact .grouped hopen (ih rfl _ rfl) hstop
  | block hopen hbody ih =>
    obtain rfl : us = [] := hus
    rintro _ ⟨⟩
    exact gathers_block hopen hbody (@ih [] rfl rfl rfl rfl)
  | ifThen hif hc hthen hp hnot =>
    obtain rfl : us = [] := hus
    rintro _ ⟨⟩
    exact gathers_of_spanTo (.ifThen hif hc hthen hp hnot) rfl
  | ifElse hif hc hthen hp helse hq =>
    obtain rfl : us = [] := hus
    rintro _ ⟨⟩
    exact gathers_of_spanTo (.ifElse hif hc hthen hp helse hq) rfl
  | lambda hword hopen hparams hb =>
    obtain rfl : us = [] := hus
    rintro _ ⟨⟩
    exact gathers_of_spanTo (.lambda hword hopen hparams hb) rfl
  | @truth n _ _ _ h =>
    obtain rfl : us = [] := hus
    rintro _ ⟨⟩
    exact gathers_of_spanTo (o := o) (k := n) (.truth h) rfl
  | @leaf n _ _ _ _ hleaf =>
    obtain rfl : us = [] := hus
    rintro _ ⟨⟩
    exact gathers_of_spanTo (o := o) (k := n) (.leaf hleaf) (Token.placed_leaf hleaf).1
  | seqClose => exact fun _ _ _ _ => nofun
  | seqTrailing | seqMore => exact nofun
  | seqFirst _ hes ihe =>
    obtain rfl : us = [] := hus
    rintro _ rfl rfl _ ⟨⟩
    exact (ihe rfl _ rfl).item hes rfl

/-! ## What stands among tokens -/

/-- The node of an operator or of a call. -/
def Node.isChain (n : Node) : Bool := n.kind ∈ [NodeKind.assign, .binary, .call]

theorem Node.isChain_joined (x : String) (left right : Node) : (Node.joined x left right).isChain = true := by
  unfold Node.joined
  split <;> rfl

theorem Node.children_joined (x : String) (left right : Node) :
    (Node.joined x left right).children = [left, right] := by
  unfold Node.joined
  split <;> rfl

/-- Among the tokens is a stretch that is read as the node, with `N` levels and alone. The span goes over
the stretch but for brackets around it, which there are only at operators and calls and which leave what
is between them unbalanced. No `else` follows a conditional without one. -/
inductive Node.StandsIn (o : ParseOptions) (N : Nat) (ts : List Token) (m : Node) : Prop where
  | intro {before opening inner closing after : List Token} {l : Option Token} :
    ts = before ++ ((opening ++ (inner ++ closing)) ++ after) →
    m.Enclosed opening inner closing →
    Reads o (.expression N) ⟨none, opening ++ (inner ++ closing)⟩ [m] ⟨l, []⟩ →
    (Balanced inner → opening = [] ∧ closing = []) →
    (m.isChain = false → opening = [] ∧ closing = []) →
    (∀ c p a, m = .ifThen c p a → ∀ t, after.head? = some t → t.is .keyword "else" = false) →
    StandsIn o N ts m

namespace Node

variable {o : ParseOptions} {N : Nat} {ts : List Token} {m : Node}

/-- More tokens in front. -/
theorem StandsIn.behind (h : m.StandsIn o N ts) (us : List Token) : m.StandsIn o N (us ++ ts) := by
  cases h with
  | @intro before opening inner closing after l htokens henclosed hreads hbalanced hwhole helse =>
    have hmore : us ++ ts = (us ++ before) ++ ((opening ++ (inner ++ closing)) ++ after) := by
      rw [htokens, ← List.append_assoc us before]
    exact .intro hmore henclosed hreads hbalanced hwhole helse

/-- All nodes of a tree stand among the tokens. -/
def AllStandIn (o : ParseOptions) (N : Nat) (ts : List Token) (n : Node) : Prop :=
  ∀ m ∈ n.walk, m.StandsIn o N ts

theorem AllStandIn.behind {n : Node} (h : n.AllStandIn o N ts) (us : List Token) :
    n.AllStandIn o N (us ++ ts) := fun m hm => (h m hm).behind us

theorem StandsIn.all (h : m.StandsIn o N ts) (hchildren : ∀ c ∈ m.children, c.AllStandIn o N ts) :
    m.AllStandIn o N ts := by
  intro x hx
  rw [walk_eq_cons, List.mem_cons, List.mem_flatMap] at hx
  obtain rfl | ⟨c, hc, hx⟩ := hx
  · exact h
  · exact hchildren c hc x hx

/-- Between brackets of its parts a node is not balanced. -/
theorem Enclosed.eq_nil_of_balanced {left n : Node} {opening inner closing more closing' : List Token}
    (h : left.Enclosed opening inner closing) (hleft : Balanced (opening ++ (inner ++ closing)))
    (h' : n.Enclosed opening (inner ++ (closing ++ more)) closing')
    (hwhole : Balanced (opening ++ ((inner ++ (closing ++ more)) ++ closing')))
    (hinner : Balanced (inner ++ (closing ++ more))) : opening = [] ∧ closing' = [] := by
  -- In front of what is between the brackets, those that `opening` opens are closed.
  have hfront : 0 ≤ brackets (inner ++ closing) := by
    refine hinner.front _ ⟨more, ?_⟩
    rw [List.append_assoc]
  have htotal := hleft.total
  rw [brackets_append, brackets_of_openers h.opens] at htotal
  have hopening : opening = [] := List.length_eq_zero_iff.mp (by omega)
  refine ⟨hopening, h'.closes.brackets_neg.resolve_right fun hneg => ?_⟩
  have htotal' := hwhole.total
  rw [hopening, List.nil_append, brackets_append, hinner.total] at htotal'
  omega

end Node

variable {o : ParseOptions} {N : Nat}

/-- More levels, up to `N`. -/
theorem Reads.raise {n : Nat} {s s' : Spot} {e : Node} (h : Reads o (.expression n) s [e] s') (hn : n ≤ N) :
    Reads o (.expression N) s [e] s' := by
  have hrelaxed := h.relax (N - n) o.maxDepth
  rw [Task.raise, Nat.sub_add_cancel hn] at hrelaxed
  exact hrelaxed

/-- What is read as an expression is balanced. -/
theorem Reads.balanced_of_alone {n : Nat} {ts : List Token} {e : Node} {l l' : Option Token}
    (h : Reads o (.expression n) ⟨l, ts⟩ [e] ⟨l', []⟩) : Balanced ts := by
  obtain ⟨us, hus, hbalanced⟩ := h.balanced trivial
  have hall : ts = us ++ [] := hus.1
  rw [hall, List.append_nil]
  exact hbalanced

/-- The next token to the last one taken: a primary with such a span stands there. -/
theorem Reads.standsIn {n : Nat} {s s' : Spot} {m : Node} (h : Reads o (.primary n) s [m] s')
    (hn : n + 1 ≤ N) (hspan : m.span = s.spanTo s')
    (helse : ∀ c p a, m = .ifThen c p a → s'.isAt .keyword "else" = false) : m.StandsIn o N s.rest := by
  obtain ⟨ts, hts, hne⟩ := h.takes
  have halone := ((h.before trivial hts List.nil_prefix).forget trivial none).alone (rests_of_rest_eq_nil rfl)
  have htokens : s.rest = [] ++ (([] ++ (ts ++ [])) ++ s'.rest) := by
    rw [hts.1]
    simp
  have henclosed : m.Enclosed [] ts [] := ⟨nofun, Node.spansOver_of_takes hspan hts (hne trivial), .nil⟩
  refine .intro htokens henclosed (halone.raise hn) (fun _ => ⟨rfl, rfl⟩) (fun _ => ⟨rfl, rfl⟩) ?_
  intro c p a hm t ht
  have hnot := helse c p a hm
  rw [Spot.isAt, ht] at hnot
  exact hnot

/-- An operator or a call stands where it is read behind the brackets of its first part. -/
theorem Node.StandsIn.of_chain {left m : Node} {opening inner closing more closing' : List Token}
    {l : Option Token} (h : left.Enclosed opening inner closing)
    (hleft : Balanced (opening ++ (inner ++ closing)))
    (hm : m.Enclosed opening (inner ++ (closing ++ more)) closing')
    (halone : Reads o (.expression N) ⟨none, opening ++ ((inner ++ (closing ++ more)) ++ closing')⟩ [m]
      ⟨l, []⟩)
    (hchain : m.isChain = true) (after : List Token) :
    m.StandsIn o N ((opening ++ ((inner ++ (closing ++ more)) ++ closing')) ++ after) := by
  refine .intro (List.nil_append _).symm hm halone ?_ (fun hnot => ?_) ?_
  · exact h.eq_nil_of_balanced hleft hm halone.balanced_of_alone
  · rw [hchain] at hnot
    cases hnot
  · rintro c p a rfl
    cases hchain

/-! ## What a reading goes on with -/

/-- The node was read from the tokens `us`, which are behind. Whatever `task` makes of it, up to an end
of what is left, is one expression with them. -/
structure Leads (o : ParseOptions) (N : Nat) (us : List Token) (s : Spot) (n : Node) (task : Task) :
    Prop where
  readFrom : n.ReadFrom us
  allStandIn : n.AllStandIn o N (us ++ s.rest)
  goesOn : ∀ ⦃vs : List Token⦄, vs <+: s.rest → ∀ ⦃e : Node⦄ ⦃l : Option Token⦄,
    Reads o task ⟨s.last, vs⟩ [e] ⟨l, []⟩ → Reads o (.expression N) ⟨none, us ++ vs⟩ [e] ⟨l, []⟩

/-- Operators as they are read behind a whole expression. -/
abbrev Task.chain (n : Nat) (left : Node) : Task := operators n left Precedence.nothing.strength

/-- Where there are no tokens left, no operator comes. -/
theorem reads_settled {n : Nat} {left : Node} {bound : Int} {l : Option Token} :
    Reads o (.operators n left bound) ⟨l, []⟩ [left] ⟨l, []⟩ :=
  .settled ((rests_of_rest_eq_nil rfl).not_tighter bound)

namespace Leads

variable {n : Nat} {us : List Token} {s s' : Spot} {first left right callee : Node}

/-- An atom leads its operators. -/
theorem of_atom (h : Reads o (.atom n) s [first] s') (hn : n + 1 ≤ N) (hstand : first.AllStandIn o N s.rest) :
    ∃ us, s.Takes us s' ∧ Leads o N us s' first (.chain n first) := by
  obtain ⟨us, hus, hfrom⟩ := h.gives rfl _ rfl
  refine ⟨us, hus, hfrom, by rwa [← hus.1], fun vs hvs e l hrest => ?_⟩
  have hatom := (h.before trivial hus hvs).forget trivial none
  exact (Reads.expression hatom hrest (.bare (rests_of_rest_eq_nil rfl).not_call)).raise hn

/-- A primary leads its call. -/
theorem of_primary (h : Reads o (.primary n) s [first] s') (hn : n + 1 ≤ N)
    (hstand : first.AllStandIn o N s.rest) :
    ∃ us, s.Takes us s' ∧ Leads o N us s' first (.suffix n first) := by
  obtain ⟨us, hus, hfrom⟩ := h.gives rfl _ rfl
  refine ⟨us, hus, hfrom, by rwa [← hus.1], fun vs hvs e l hrest => ?_⟩
  have hprimary := (h.before trivial hus hvs).forget trivial none
  have hnot := (rests_of_rest_eq_nil (s := ⟨l, []⟩) rfl).not_call
  exact (Reads.expression (.atom hprimary hrest) reads_settled (.bare hnot)).raise hn

/-- A whole chain leads the call behind it. -/
theorem of_chain {s₁ : Spot} {whole : Node} (h : Reads o (.atom n) s [first] s₁)
    (h' : Reads o (.chain n first) s₁ [whole] s') (hn : n + 1 ≤ N) (hstand : whole.AllStandIn o N s.rest) :
    ∃ us, s.Takes us s' ∧ Leads o N us s' whole (.suffix n whole) := by
  obtain ⟨us, hus, hfirst⟩ := h.gives rfl _ rfl
  obtain ⟨ws, hws, hfrom⟩ := h'.gives hfirst _ rfl
  refine ⟨us ++ ws, hus.append hws, hfrom, by rwa [← (hus.append hws).1], fun vs hvs e l hrest => ?_⟩
  obtain ⟨more, hmore⟩ := hvs
  have hfront : ws ++ vs <+: s₁.rest := ⟨more, by rw [hws.1, ← hmore, List.append_assoc]⟩
  have hatom := (h.before trivial hus hfront).forget trivial none
  have hchain := h'.before trivial hws ⟨more, hmore⟩
  rw [← List.append_assoc] at hatom
  exact (Reads.expression hatom hchain hrest).raise hn

/-- A node that leads is read from its tokens alone. -/
theorem alone {task : Task} (h : Leads o N us s left task)
    (hnone : Reads o task ⟨s.last, []⟩ [left] ⟨s.last, []⟩) :
    Reads o (.expression N) ⟨none, us⟩ [left] ⟨s.last, []⟩ := by
  have halone := h.goesOn List.nil_prefix hnone
  rwa [List.append_nil] at halone

/-- An operator folds what leads it and its right operand to a node that leads the operators behind. -/
theorem joined {l : Option Token} {t : Token} {rest : List Token} {s₁ : Spot}
    (h : Leads o N us ⟨l, t :: rest⟩ left (.chain (n + 1) left)) (ht : t.Tighter 0)
    (hright : Reads o (.operand n (Parser.rightBound o t.text)) ⟨some t, rest⟩ [right] s₁)
    (hstand : right.AllStandIn o N rest) :
    ∃ ts, Takes ⟨l, t :: rest⟩ ts s₁ ∧
      Leads o N (us ++ ts) s₁ (.joined t.text left right) (.chain n (.joined t.text left right)) := by
  obtain ⟨ts, hts, hoperand⟩ := hright.gives rfl _ rfl
  have htakes := (Takes.one l t rest).append hts
  -- Whatever is read behind the right operand is read behind the operator.
  have hgoes : ∀ ⦃vs : List Token⦄, vs <+: s₁.rest → ∀ ⦃e : Node⦄ ⦃l' : Option Token⦄,
      Reads o (.chain n (.joined t.text left right)) ⟨s₁.last, vs⟩ [e] ⟨l', []⟩ →
      Reads o (.expression N) ⟨none, (us ++ (t :: ts)) ++ vs⟩ [e] ⟨l', []⟩ := by
    rintro vs hvs e l' hrest
    have hfold := Reads.fold ht (hright.before trivial hts hvs) hrest (l := l)
    obtain ⟨more, hmore⟩ := hvs
    have hfront : t :: (ts ++ vs) <+: t :: rest := by
      refine ⟨more, ?_⟩
      have hrest : rest = ts ++ s₁.rest := hts.1
      rw [hrest, ← hmore]
      simp
    rw [List.append_assoc]
    exact h.goesOn hfront hfold
  obtain ⟨opening, inner, closing, rfl, hleft⟩ := h.readFrom
  obtain ⟨opening', inner', closing', rfl, hclosed⟩ := hoperand
  have hjoined := hleft.joined hclosed t.text t
  have hsplit : (opening ++ (inner ++ closing)) ++ t :: (opening' ++ (inner' ++ closing')) =
      opening ++ ((inner ++ (closing ++ t :: (opening' ++ inner'))) ++ closing') := by
    simp
  have halone := hgoes List.nil_prefix reads_settled
  rw [List.append_nil, hsplit] at halone
  have hstands := Node.StandsIn.of_chain hleft (h.alone reads_settled).balanced_of_alone hjoined halone
    (Node.isChain_joined _ _ _) s₁.rest
  have hrest : (opening ++ (inner ++ closing)) ++ t :: rest =
      ((opening ++ (inner ++ closing)) ++ t :: (opening' ++ (inner' ++ closing'))) ++ s₁.rest := by
    rw [List.append_assoc _ (t :: _), List.cons_append, ← hts.1]
  rw [← hsplit, ← hrest] at hstands
  refine ⟨_, htakes, ⟨_, _, _, hsplit, hjoined⟩, ?_, hgoes⟩
  rw [List.singleton_append, ← hrest]
  refine hstands.all fun c hc => ?_
  rw [Node.children_joined, List.mem_pair] at hc
  obtain rfl | rfl := hc
  · exact h.allStandIn
  · rw [← List.singleton_append (x := t) (l := rest), ← List.append_assoc]
    exact hstand.behind _

/-- A call of what leads it. -/
theorem called {s₁ s₂ : Spot} {args : List Node} (h : Leads o N us s callee (.suffix n callee))
    (hopen : s.Passes .punctuation "(" s₁) (hargs : Reads o (.sequence n ")" "," true) s₁ args s₂)
    (hstand : ∀ a ∈ args, a.AllStandIn o N s₁.rest) :
    (Node.called callee args s₂).AllStandIn o N (us ++ s.rest) := by
  obtain ⟨t, _, ht⟩ := hopen.takes
  obtain ⟨ts, hts, _⟩ := hargs.takes
  have htakes := ht.append hts
  have hread : Reads o (.suffix n callee) s [.called callee args s₂] s₂ := .call hopen hargs
  have hcall := hread.before trivial htakes List.nil_prefix
  rw [List.append_nil] at hcall
  have halone := h.goesOn ⟨s₂.rest, htakes.1.symm⟩ hcall
  have hcallee := (h.alone (.bare (rests_of_rest_eq_nil rfl).not_call)).balanced_of_alone
  obtain ⟨opening, inner, closing, rfl, hclosed⟩ := h.readFrom
  have hcalled := hclosed.called htakes (List.cons_ne_nil t ts) args
  have hsplit : (opening ++ (inner ++ closing)) ++ ([t] ++ ts) =
      opening ++ ((inner ++ (closing ++ ([t] ++ ts))) ++ []) := by
    simp
  rw [hsplit] at halone
  have hstands := Node.StandsIn.of_chain hclosed hcallee hcalled halone rfl s₂.rest
  rw [← hsplit, List.append_assoc, ← htakes.1] at hstands
  refine hstands.all fun c hc => ?_
  obtain rfl | hc := List.mem_cons.mp hc
  · exact h.allStandIn
  · rw [ht.1, ← List.append_assoc]
    exact (hstand c hc).behind _

end Leads

/-! ## All nodes stand among the tokens -/

/-- What was read before a task, and from which tokens. -/
def Task.Led (o : ParseOptions) (N : Nat) (us : List Token) (s : Spot) : Task → Prop
  | operators n left bound => 0 ≤ bound ∧ Leads o N us s left (.chain n left)
  | suffix n callee => Leads o N us s callee (.suffix n callee)
  | operand _ bound => 0 ≤ bound ∧ us = []
  | _ => us = []

/-- The levels that an expression of the same parts has. -/
def Task.room : Task → Nat
  | statements n | expression n | operand n _ | operators n _ _ | suffix n _ | sequence n _ _ _ => n
  | atom n | primary n => n + 1

/-- A node made from one token has no parts. -/
theorem Token.childless_of_leaf? {t : Token} {a : Node} (h : t.leaf? = some a) :
    a.children = [] ∧ ∀ c p b, a ≠ .ifThen c p b := by
  unfold Token.leaf? at h
  cases hk : t.kind <;> rw [hk] at h
  case punctuation | keyword => cases h
  case number =>
    obtain ⟨x, _, rfl⟩ := Option.map_eq_some_iff.mp h
    exact ⟨rfl, nofun⟩
  all_goals
    obtain rfl := Option.some.inj h
    exact ⟨rfl, nofun⟩

namespace Node

/-- All nodes of the trees stand among the tokens. -/
def Stand (o : ParseOptions) (N : Nat) (ts : List Token) (ns : List Node) : Prop :=
  ∀ n ∈ ns, n.AllStandIn o N ts

section Rules

variable {n : Nat} {kind : TokenKind} {x stop separator : String} {task : Task} {us ts : List Token}
  {s s₁ s₂ s' : Spot} {e m first whole left right : Node} {ms ns body : List Node}

theorem stand_single : Stand o N ts [e] ↔ e.AllStandIn o N ts := List.forall_mem_singleton

theorem Stand.append (h : Stand o N ts ms) (h' : Stand o N ts ns) : Stand o N ts (ms ++ ns) :=
  List.forall_mem_append.mpr ⟨h, h'⟩

/-! ### Behind tokens that are taken first -/

theorem Stand.takes (hts : s.Takes ts s') (h : Stand o N s'.rest ns) : Stand o N s.rest ns := by
  intro e he
  rw [hts.1]
  exact (h e he).behind ts

theorem Stand.passes (hx : s.Passes kind x s') (h : Stand o N s'.rest ns) : Stand o N s.rest ns := by
  obtain ⟨t, _, ht⟩ := hx.takes
  exact h.takes ht

theorem Stand.then (hthen : s.Then s') (h : Stand o N s'.rest ns) : Stand o N s.rest ns := by
  obtain ⟨ts, hts⟩ := hthen.takes
  exact h.takes hts

theorem Stand.params {xs : List String} {start : Bool}
    (hxs : Sequence o Names stop separator start s xs s') (h : Stand o N s'.rest ns) :
    Stand o N s.rest ns := by
  obtain ⟨ts, hts⟩ := hxs.takes fun hx => by
    obtain ⟨t, _, _, ht⟩ := hx.takes
    exact ⟨_, ht⟩
  exact h.takes hts

theorem Stand.reads (hms : Reads o task s ms s') (h : Stand o N s'.rest ns) : Stand o N s.rest ns := by
  obtain ⟨ts, hts, _⟩ := hms.takes
  exact h.takes hts

/-! ### Behind what leads it -/

/-- What comes of an atom with its operators stands where the atom starts. -/
theorem Stand.behind_atom (ha : Reads o (.atom n) s [first] s₁) (hn : n + 1 ≤ N)
    (h : Stand o N s.rest [first])
    (hmore : ∀ {us}, Leads o N us s₁ first (.chain n first) → Stand o N (us ++ s₁.rest) [e]) :
    Stand o N s.rest [e] := by
  obtain ⟨us, hus, hleads⟩ := Leads.of_atom ha hn (stand_single.mp h)
  rw [hus.1]
  exact hmore hleads

theorem Stand.behind_primary (hp : Reads o (.primary n) s [first] s₁) (hn : n + 1 ≤ N)
    (h : Stand o N s.rest [first])
    (hmore : ∀ {us}, Leads o N us s₁ first (.suffix n first) → Stand o N (us ++ s₁.rest) [e]) :
    Stand o N s.rest [e] := by
  obtain ⟨us, hus, hleads⟩ := Leads.of_primary hp hn (stand_single.mp h)
  rw [hus.1]
  exact hmore hleads

theorem Stand.behind_chain (ha : Reads o (.atom n) s [first] s₁)
    (ho : Reads o (.chain n first) s₁ [whole] s₂) (hn : n + 1 ≤ N) (h : Stand o N s.rest [whole])
    (hmore : ∀ {us}, Leads o N us s₂ whole (.suffix n whole) → Stand o N (us ++ s₂.rest) [e]) :
    Stand o N s.rest [e] := by
  obtain ⟨us, hus, hleads⟩ := Leads.of_chain ha ho hn (stand_single.mp h)
  rw [hus.1]
  exact hmore hleads

/-- What comes of an operator between its operands stands where the left one does. -/
theorem Stand.behind_fold {last : Option Token} {t : Token} {rest : List Token}
    (hleft : Leads o N us ⟨last, t :: rest⟩ left (.chain (n + 1) left)) (ht : t.Tighter 0)
    (hright : Reads o (.operand n (Parser.rightBound o t.text)) ⟨some t, rest⟩ [right] s₁)
    (h : Stand o N rest [right])
    (hmore : ∀ {us}, Leads o N us s₁ (.joined t.text left right) (.chain n (.joined t.text left right)) →
      Stand o N (us ++ s₁.rest) [e]) : Stand o N (us ++ t :: rest) [e] := by
  obtain ⟨ts, hts, hjoined⟩ := hleft.joined ht hright (stand_single.mp h)
  have hrest : t :: rest = ts ++ s₁.rest := hts.1
  rw [hrest, ← List.append_assoc]
  exact hmore hjoined

/-! ### Forms -/

/-- A primary with a span from its first token to its last one stands there if its parts do. -/
theorem Stand.formed (h : Reads o (.primary n) s [m] s') (hn : n + 1 ≤ N) (hspan : m.span = s.spanTo s')
    (helse : ∀ c p a, m = .ifThen c p a → s'.isAt .keyword "else" = false)
    (hparts : Stand o N s.rest m.children) : Stand o N s.rest [m] :=
  stand_single.mpr ((h.standsIn hn hspan helse).all hparts)

theorem Stand.blocked (hopen : s.Passes .punctuation "\x7b" s₁)
    (hbody : Reads o (.sequence n "\x7d" ";" true) s₁ body s') (hn : n + 1 ≤ N)
    (h : Stand o N s₁.rest body) : Stand o N s.rest [.blocked body (s.spanTo s')] := by
  match body, hbody, h with
  | [], hbody, _ => exact Stand.formed (.block hopen hbody) hn rfl nofun nofun
  | [_], _, h => exact .passes hopen h
  | _ :: _ :: _, hbody, h => exact Stand.formed (.block hopen hbody) hn rfl nofun (.passes hopen h)

theorem stand_leaf {t : Token} {rest : List Token} (h : t.leaf? = some m) (hn : n + 1 ≤ N) :
    Stand o N (t :: rest) [m] := by
  obtain ⟨hchildren, hnot⟩ := Token.childless_of_leaf? h
  have hread : Reads o (.primary n) ⟨none, t :: rest⟩ [m] ⟨some t, rest⟩ := .leaf h
  refine Stand.formed hread hn (Token.placed_leaf h).1 (fun c p b hif => absurd hif (hnot c p b)) ?_
  rw [hchildren]
  exact nofun

end Rules

end Node

open Node in
/-- Every node that is read stands among the tokens, those included that the reading starts from. -/
theorem Reads.stands {task : Task} {s s' : Spot} {ns : List Node} (h : Reads o task s ns s')
    (hroom : task.room ≤ N) {us : List Token} (hled : task.Led o N us s) :
    Stand o N (us ++ s.rest) ns := by
  induction h generalizing us with
  | done | seqClose | seqTrailing => exact nofun
  | last _ _ ih =>
    obtain rfl : us = [] := hled
    exact ih hroom rfl
  | next he hsep _ ihe ih =>
    obtain rfl : us = [] := hled
    exact (ihe hroom rfl).append (.reads he (.passes hsep (ih hroom rfl)))
  | expression ha ho _ iha iho ihs =>
    obtain rfl : us = [] := hled
    have hroom' : _ ≤ N := Nat.le_of_succ_le hroom
    have hwhole := Stand.behind_atom ha hroom (iha hroom rfl) fun h => iho hroom' ⟨Int.le_refl _, h⟩
    exact .behind_chain ha ho hroom hwhole fun h => ihs hroom' h
  | operand ha _ iha iho =>
    obtain ⟨hbound, rfl⟩ := hled
    exact .behind_atom ha hroom (iha hroom rfl) fun h => iho (Nat.le_of_succ_le hroom) ⟨hbound, h⟩
  | settled => exact stand_single.mpr hled.2.allStandIn
  | fold ht hright _ ihr iho =>
    obtain ⟨hbound, hleft⟩ := hled
    have hroom' : _ ≤ N := Nat.le_of_succ_le hroom
    have hoperand := ihr hroom' ⟨Grammar.rightBound_nonneg hbound ht, rfl⟩
    exact .behind_fold hleft (Grammar.tighter_zero_of_tighter hbound ht) hright hoperand
      fun h => iho hroom' ⟨hbound, h⟩
  | atom hp _ ihp ihs =>
    obtain rfl : us = [] := hled
    exact .behind_primary hp hroom (ihp hroom rfl) fun h => ihs (Nat.le_of_succ_le hroom) h
  | bare => exact stand_single.mpr hled.allStandIn
  | call hopen hargs ih => exact stand_single.mpr (hled.called hopen hargs (ih hroom rfl))
  | group hopen _ _ ih =>
    obtain rfl : us = [] := hled
    exact .passes hopen (ih (Nat.le_of_succ_le hroom) rfl)
  | block hopen hbody ih =>
    obtain rfl : us = [] := hled
    exact .blocked hopen hbody hroom (ih (Nat.le_of_succ_le hroom) rfl)
  | ifThen hif hc hthen hp hnot ihc ihp =>
    obtain rfl : us = [] := hled
    have hroom' : _ ≤ N := Nat.le_of_succ_le hroom
    have hparts := (ihc hroom' rfl).append (.reads hc (.then hthen (ihp hroom' rfl)))
    exact .formed (.ifThen hif hc hthen hp hnot) hroom rfl (fun _ _ _ _ => hnot) (.passes hif hparts)
  | ifElse hif hc hthen hp helse hq ihc ihp ihq =>
    obtain rfl : us = [] := hled
    have hroom' : _ ≤ N := Nat.le_of_succ_le hroom
    have hbranches := (ihp hroom' rfl).append (.reads hp (.passes helse (ihq hroom' rfl)))
    have hparts := (ihc hroom' rfl).append (.reads hc (.then hthen hbranches))
    exact .formed (.ifElse hif hc hthen hp helse hq) hroom rfl nofun (.passes hif hparts)
  | lambda hword hopen hparams hb ihb =>
    obtain rfl : us = [] := hled
    have hbody := Stand.params hparams (ihb (Nat.le_of_succ_le hroom) rfl)
    exact .formed (.lambda hword hopen hparams hb) hroom rfl nofun (.passes hword (.passes hopen hbody))
  | truth h =>
    obtain rfl : us = [] := hled
    exact .formed (.truth h) hroom rfl nofun nofun
  | leaf hleaf =>
    obtain rfl : us = [] := hled
    exact stand_leaf hleaf hroom
  | seqFirst he _ ihe ih =>
    obtain rfl : us = [] := hled
    exact (ihe hroom rfl).append (.reads he (ih hroom rfl))
  | seqMore hsep he _ ihe ih =>
    obtain rfl : us = [] := hled
    exact (Stand.passes hsep (ihe hroom rfl)).append (.passes hsep (.reads he (ih hroom rfl)))

end LambdaReader
