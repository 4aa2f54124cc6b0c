import Mathlib.Data.List.DropRight
import LambdaReader.Proofs.Foresight
import LambdaReader.Proofs.Watching
import LambdaReader.Proofs.Locality

/-!
# `Proofs.Positions` — every location is a place in the text

Lines and columns are counted as the text is read. Whatever is read, and wherever a location is kept to be
reported later, it is one that can be found again by counting in the text: it is the place behind some
front of it (`Source.hasPlace_behind`). The cursor itself only goes on, character by character, while tokens
are asked for or a program is read: its states are those that a watched scanner remembers.

## Main result
- `Source.places`: the locations of cursors, by themselves and during a run, of tokens, trees and faults.
-/

namespace LambdaReader

open TokenSource

/-- The location names the file, and line and column count what stands before its offset in the text. -/
structure Source.HasPlace (s : Source) (l : Location) : Prop where
  file : l.file = s.file
  offset_nonneg : 0 ≤ l.offset
  offset_le : l.offset ≤ s.text.length
  /-- One line feed ends each line before this one. -/
  line : l.line = 1 + (s.text.toList.take l.offset.toNat).count '\n'
  /-- No line feed stands between the start of the line and the place. -/
  column : l.column = ((s.text.toList.take l.offset.toNat).rtakeWhile (· ≠ '\n')).length

namespace Location

/-! ## Counting lines and columns -/

theorem advance_line (l : Location) (cs : List Char) :
    (l.advance cs).line = l.line + cs.count '\n' := by
  induction cs generalizing l with
  | nil => simp
  | cons c cs ih =>
    rw [advance_cons, ih, step, List.count_cons]
    by_cases hc : c = '\n'
    · simp [hc]
      omega
    · simp [hc]

theorem advance_column (l : Location) (hl : l.column = 0) (cs : List Char) :
    (l.advance cs).column = (cs.rtakeWhile (· ≠ '\n')).length := by
  induction cs using List.reverseRecOn with
  | nil => exact hl
  | append_singleton cs c ih =>
    rw [advance_append, advance_cons, advance_nil, step]
    by_cases hc : c = '\n'
    · rw [if_pos hc, List.rtakeWhile_concat_neg _ _ _ (by simp [hc])]
      rfl
    · rw [if_neg hc, List.rtakeWhile_concat_pos _ _ _ (by simp [hc]), List.length_append]
      exact congrArg (· + 1) ih

end Location

/-- The place behind a front of the text is found by counting in it. -/
theorem Source.hasPlace_behind (s : Source) {front : List Char} (h : front <+: s.text.toList) :
    s.HasPlace (.behind s.file front) := by
  have hfront : s.text.toList.take (Location.behind s.file front).offset.toNat = front := by
    rw [Location.behind_offset, Int.toNat_natCast]
    exact List.prefix_iff_eq_take.mp h |>.symm
  constructor
  case file => exact Location.advance_file _ _
  case offset_nonneg =>
    rw [Location.behind_offset]
    exact Int.natCast_nonneg _
  case offset_le =>
    rw [Location.behind_offset, ← String.length_toList]
    exact Int.ofNat_le.mpr h.length_le
  case line => rw [hfront, Location.behind, Location.advance_line, Location.start]
  case column => rw [hfront, Location.behind, Location.advance_column _ rfl]

/-! ## Cursors -/

namespace Cursor

/-- What a cursor can be asked for; only `next` moves it. -/
inductive Call where
  | peek
  | next
  | atEnd

def after (c : Cursor) : Call → Cursor
  | .peek => c
  | .next => c.next.2
  | .atEnd => c

/-- The cursor after calls made one after the other. -/
def run (c : Cursor) (calls : List Call) : Cursor := calls.foldl after c

/-- The cursor has read a front of the text and has the rest of it ahead. -/
def Faces (s : Source) (c : Cursor) : Prop :=
  ∃ front, s.text.toList = front ++ c.rest ∧ c.location = .behind s.file front

variable {s : Source} {c : Cursor}

theorem Faces.after (h : c.Faces s) (call : Call) : (c.after call).Faces s := by
  cases call with
  | peek => exact h
  | atEnd => exact h
  | next =>
    obtain ⟨front, htext, hlocation⟩ := h
    obtain ⟨l, rest⟩ := c
    cases rest with
    | nil => exact ⟨front, htext, hlocation⟩
    | cons d rest =>
      refine ⟨front ++ [d], ?_, ?_⟩
      · rw [htext]
        simp [Cursor.after, next]
      · rw [Location.behind, Location.advance_append, ← Location.behind, ← hlocation]
        rfl

theorem Faces.run (h : c.Faces s) (calls : List Call) : (c.run calls).Faces s := by
  induction calls generalizing c with
  | nil => exact h
  | cons call calls ih => exact ih (h.after call)

theorem offset_le_after (c : Cursor) (call : Call) :
    c.location.offset ≤ (c.after call).location.offset := by
  cases call with
  | peek => exact Int.le_refl _
  | atEnd => exact Int.le_refl _
  | next =>
    obtain ⟨l, rest⟩ := c
    cases rest with
    | nil => exact Int.le_refl _
    | cons d rest =>
      show l.offset ≤ (l.step d).offset
      rw [Location.step_offset]
      omega

theorem offset_le_run (c : Cursor) (calls : List Call) :
    c.location.offset ≤ (c.run calls).location.offset := by
  induction calls generalizing c with
  | nil => exact Int.le_refl _
  | cons call calls ih => exact Int.le_trans (c.offset_le_after call) (ih _)

/-- Reading several characters is taking one after the other. -/
theorem read_eq_run (c : Cursor) (n : Nat) : (c.read n).2 = c.run (List.replicate n .next) := by
  induction n generalizing c with
  | zero => rfl
  | succ n ih =>
    obtain ⟨l, rest⟩ := c
    rw [List.replicate_succ, run, List.foldl_cons, ← run, ← ih]
    cases rest with
    | nil =>
      show (⟨l, []⟩ : Cursor) = (read ⟨l, []⟩ n).2
      rw [read_eq, List.take_nil, consume_nil]
    | cons d rest => rfl

theorem Faces.hasPlace (h : c.Faces s) : s.HasPlace c.location := by
  obtain ⟨front, htext, hlocation⟩ := h
  rw [hlocation]
  exact s.hasPlace_behind ⟨c.rest, htext.symm⟩

/-- The next character is the one at the offset. -/
theorem Faces.peek_eq (h : c.Faces s) : c.peek = s.text.toList[c.location.offset.toNat]? := by
  obtain ⟨front, htext, hlocation⟩ := h
  rw [hlocation, Location.behind_offset, Int.toNat_natCast, htext, List.getElem?_append_right (Nat.le_refl _),
    Nat.sub_self, ← List.head?_eq_getElem?]
  rfl

end Cursor

/-! ## Cursors during a run -/

/-- These are cursors on the text, the first of them at its start. Each is one that calls lead to, from the
start and from all before it, and none is further back than those. -/
structure Source.Visits (s : Source) (cs : List Cursor) (last : Cursor) : Prop where
  first_eq : cs.head? = some (.ofText s.text s.file)
  last_eq : cs.getLast? = some last
  run : ∀ c ∈ cs, ∃ calls, c = (Cursor.ofText s.text s.file).run calls
  hasPlace : ∀ c ∈ cs, s.HasPlace c.location
  onward : cs.Pairwise fun c d => (∃ calls, d = c.run calls) ∧ c.location.offset ≤ d.location.offset

/-- A scanner at the start that remembers its states. -/
def Source.watched (s : Source) : Watched Scanner := .ofSource s.scanner

/-- The cursors of the scanner while requests are answered. -/
def Source.cursorsAsked (s : Source) (rs : List Request) : List Cursor :=
  ((Lookahead.ofSource s.watched).after rs).source.states.map Scanner.cursor

/-- The cursors of the scanner while the program is read. -/
def Source.cursorsRead (s : Source) (o : ParseOptions) : List Cursor :=
  (Parser.after (Parser.program o) (.ofSource s.watched)).tokens.source.states.map Scanner.cursor

/-- A scanner that has come along has moved by calls of its cursor. -/
theorem Scanner.Along.cursor_eq {s s' : Scanner} (h : s.Along s') :
    ∃ calls, s'.cursor = s.cursor.run calls := by
  obtain ⟨run, hrun, rfl⟩ := h
  refine ⟨List.replicate run.length .next, ?_⟩
  rw [← Cursor.read_eq_run, Cursor.read_of_isPrefix hrun]
  rfl

/-! ## Tokens, trees and faults -/

/-- A scan fails at a place that it has come to. -/
theorem Scanner.along_of_drain_failed (s : Scanner) : ∀ e, (drain s).2 = .failed e →
    ∃ cause s', s.Along s' ∧ e = .lexical cause s'.location := by
  refine drain_induction (P := fun s d => ∀ e, d.2 = .failed e →
    ∃ cause s', s.Along s' ∧ e = .lexical cause s'.location) ?_ ?_ ?_ s
  · intro s s' t hscan ih e he
    obtain ⟨cause, s'', halong, rfl⟩ := ih e he
    exact ⟨cause, s'', (Along.of_scan hscan).trans halong, rfl⟩
  · intro s s' _ e he
    cases he
  · intro s s' f hscan e he
    cases he
    obtain ⟨gap, passed, rest, cause, hrest, _, rfl, _⟩ := readNext_refused hscan
    exact ⟨cause, s.after gap, ⟨gap, ⟨passed ++ rest, hrest.symm⟩, rfl⟩, rfl⟩

namespace Source

variable {s : Source} {o : ParseOptions}

theorem hasPlace_of_along {s' : Scanner} (h : s.scanner.Along s') : s.HasPlace s'.location := by
  obtain ⟨run, hrun, rfl⟩ := h
  exact s.hasPlace_behind hrun

/-- A token has its places, that of its first character and that behind it. -/
theorem hasPlace_of_mem {t : Token} (ht : t ∈ (drain s.scanner).1) :
    s.HasPlace t.location ∧ s.HasPlace t.stop := by
  obtain ⟨front, back, htext, hlocation⟩ := s.scanner.place_of_mem_drain t ht
  have hstop : t.stop = .behind s.file (front ++ t.lexeme.toList) := by
    rw [Token.stop, hlocation, Location.behind, Location.advance_append]
    rfl
  refine ⟨?_, ?_⟩
  · rw [hlocation]
    exact s.hasPlace_behind ⟨_, htext.symm⟩
  · rw [hstop]
    exact s.hasPlace_behind ⟨back, by rw [List.append_assoc]; exact htext.symm⟩

/-- Where scanning fails there is a place, and no token. -/
theorem hasPlace_of_failed {e : Failure} (h : (drain s.scanner).2 = .failed e) :
    ∃ f, e.fault? = .ok f ∧ s.HasPlace f.location ∧ f.token = none := by
  obtain ⟨cause, s', halong, rfl⟩ := s.scanner.along_of_drain_failed e h
  exact ⟨_, Failure.fault?_lexical cause _, hasPlace_of_along halong, rfl⟩

/-- The trees in a program have spans from tokens, and its own span starts with the source. -/
theorem anchored_of_parse {n : Node} (h : s.parse o = .ok n) :
    ∃ body ts, ts ⊆ (drain s.scanner).1 ∧ n = .program body (some (Node.rootSpan (.start s.file) ts)) ∧
      ∀ m ∈ body.flatMap Node.walk, ∃ a, m.span = some a ∧ a.Anchored ts := by
  obtain ⟨l, hdone⟩ := s.drain_of_parse h
  obtain ⟨body, s', hbody, rfl⟩ := (TokenSource.read_eq_ok_iff hdone n).mp h
  obtain ⟨ts, hts, hrow⟩ : ∃ ts, Spot.Takes _ ts s' ∧ Node.Row ([] ++ ts) body :=
    hbody.laid nofun (Scanner.ascending_drain s.scanner).1
  refine ⟨body, ts, ?_, ?_, fun m hm => ?_⟩
  · have htokens : (drain s.scanner).1 = ts ++ s'.rest := hts.1
    rw [htokens]
    exact List.subset_append_left _ _
  · rw [Spot.spanFrom, hts.2, Option.or_none]
    rfl
  · obtain ⟨c, hc, hm⟩ := List.mem_flatMap.mp hm
    exact ((hrow.placed c hc).of_mem_walk m hm).anchored

/-- The cursors that a watched scanner remembers. -/
theorem visits_of_onward {w : Watched Scanner} (h : Watched.Onward s.scanner w) :
    s.Visits (w.states.map Scanner.cursor) w.source.cursor where
  first_eq := by
    rw [List.head?_map, h.first]
    rfl
  last_eq := by
    rw [List.getLast?_map, w.getLast?_states]
    rfl
  run := List.forall_mem_map.mpr fun x hx => (h.along_first hx).cursor_eq
  hasPlace := List.forall_mem_map.mpr fun x hx => hasPlace_of_along (h.along_first hx)
  onward := by
    rw [List.pairwise_map]
    refine h.along.imp fun {x y} hxy => ?_
    obtain ⟨calls, hcalls⟩ := hxy.cursor_eq
    refine ⟨⟨calls, hcalls⟩, ?_⟩
    rw [hcalls]
    exact x.cursor.offset_le_run calls

/-- Requests, all tokens among them, move the cursor on from place to place. -/
theorem visits_asked (s : Source) (rs : List Request) :
    s.Visits (s.cursorsAsked rs) ((Lookahead.ofSource s.scanner).after rs).source.cursor := by
  have hsame : (Lookahead.ofSource s.scanner).after rs = ((Lookahead.ofSource s.watched).after rs).unwatched :=
    Lookahead.after_unwatched rs (Lookahead.ofSource s.watched)
  rw [hsame]
  exact visits_of_onward (Lookahead.keeps_after (Watched.keeps_onward s.scanner) rs (.start s.scanner))

/-- So does reading a program, whether there is one or not. -/
theorem visits_read (s : Source) (o : ParseOptions) :
    s.Visits (s.cursorsRead o)
      (Parser.after (Parser.program o) (.ofSource s.scanner)).tokens.source.cursor := by
  rw [← (Parser.program_unwatched o s.scanner).2]
  have hkeeps := Watched.keeps_onward s.scanner
  exact visits_of_onward (Parser.Offered.program.keepsSource hkeeps (.start s.scanner))

/-- All locations are places in the text: that of a cursor after any calls, which ends at the end of the
text, those of the cursor while tokens are asked for or a program is read, with any outcome, those of the
tokens, those of the tree, and those of the fault where there are none. -/
theorem places (s : Source) (o : ParseOptions) :
    (∀ calls, let c := (Cursor.ofText s.text s.file).run calls
      s.HasPlace c.location ∧ c.peek = s.text.toList[c.location.offset.toNat]? ∧
      c.next.1 = c.peek ∧ c.atEnd = c.peek.isNone ∧
      (∀ call, c.location.offset ≤ (c.after call).location.offset) ∧
      (c.atEnd = true → c.peek = none ∧ c.next = (none, c) ∧ ∀ call, c.after call = c)) ∧
    (∀ rs, (Lookahead.ofSource s.watched).replies rs = (Lookahead.ofSource s.scanner).replies rs ∧
      s.Visits (s.cursorsAsked rs) ((Lookahead.ofSource s.scanner).after rs).source.cursor) ∧
    (TokenSource.read o s.watched = s.read o ∧ s.Visits (s.cursorsRead o)
      (Parser.after (Parser.program o) (.ofSource s.scanner)).tokens.source.cursor) ∧
    (∀ ts, s.tokens = .ok ts → ∀ t ∈ ts, s.HasPlace t.location) ∧
    (∀ e, s.tokens = .error e → ∃ f, e.fault? = .ok f ∧ s.HasPlace f.location) ∧
    (∀ n, s.parse o = .ok n → ∀ m ∈ n.walk, ∃ a, m.span = some a ∧ s.HasPlace a.first ∧ s.HasPlace a.last) ∧
    ∀ e, s.parse o = .error e → ∃ f, e.fault? = .ok f ∧ s.HasPlace f.location ∧
      ∀ t, f.token = some t → s.HasPlace t.location := by
  refine ⟨fun calls => ?_, fun rs => ⟨?_, s.visits_asked rs⟩,
    ⟨(Parser.program_unwatched o s.scanner).1, s.visits_read o⟩, fun ts hts t ht => ?_, fun e he => ?_,
    fun n hn m hm => ?_, fun e he => ?_⟩
  · have hstart : (Cursor.ofText s.text s.file).Faces s := ⟨[], rfl, rfl⟩
    have hfaces := hstart.run calls
    refine ⟨hfaces.hasPlace, hfaces.peek_eq, Cursor.next_fst _, Cursor.atEnd_eq _,
      Cursor.offset_le_after _, fun hend => ⟨?_, Cursor.next_of_atEnd hend, fun call => ?_⟩⟩
    · rw [Cursor.peek, List.isEmpty_iff.mp hend, List.head?_nil]
    · cases call with
      | peek => rfl
      | next => exact congrArg Prod.snd (Cursor.next_of_atEnd hend)
      | atEnd => rfl
  · exact (Lookahead.replies_unwatched rs (Lookahead.ofSource s.watched)).symm
  · rw [← (drain_of_tokens hts).1] at ht
    exact (hasPlace_of_mem ht).1
  · obtain ⟨f, hf, hplace, _⟩ := hasPlace_of_failed (failed_of_tokens he)
    exact ⟨f, hf, hplace⟩
  · obtain ⟨body, ts, hts, rfl, hbody⟩ := anchored_of_parse hn
    have hplace (t : Token) (ht : t ∈ ts) : s.HasPlace t.location := (hasPlace_of_mem (hts ht)).1
    have hstart : s.HasPlace (.start s.file) := s.hasPlace_behind List.nil_prefix
    rw [Node.walk_eq_cons, List.mem_cons] at hm
    rcases hm with rfl | hm
    · refine ⟨_, rfl, hstart, ?_⟩
      rw [Node.rootSpan]
      cases hlast : ts.getLast? with
      | none => exact hstart
      | some t => exact hplace t (List.mem_of_getLast? hlast)
    · obtain ⟨a, ha, ⟨t, ht, hfirst⟩, ⟨u, hu, hlast⟩, _⟩ := hbody m hm
      exact ⟨a, ha, hfirst ▸ hplace t ht, hlast ▸ hplace u hu⟩
  · rw [parse_eq_parseRecorded] at he
    have hlexemes := Scanner.isLexeme_of_mem_drain s.scanner
    rcases Replay.stops_of_parse hlexemes he with hfailed | ⟨cause, t, ht, rfl⟩ | ⟨cause, l, hend, rfl⟩
    · obtain ⟨f, hf, hplace, htoken⟩ := hasPlace_of_failed hfailed
      refine ⟨f, hf, hplace, ?_⟩
      rw [htoken]
      rintro _ ⟨⟩
    · refine ⟨_, Failure.fault?_grammar cause (some t) _, (hasPlace_of_mem ht).2, ?_⟩
      rintro _ ⟨⟩
      exact (hasPlace_of_mem ht).1
    · refine ⟨_, Failure.fault?_grammar cause none _, ?_, ?_⟩
      · rw [s.scanner.drain_done l hend]
        exact s.hasPlace_behind List.prefix_rfl
      · rintro _ ⟨⟩

/-- The places of a tree on two lines, and of a point on the third line. -/
theorem places_lines :
    let s : Source := ⟨"a =\n  b", "x", false⟩
    let s' : Source := ⟨"a\n\n .", "x", false⟩
    (∃ n, s.parse {} = .ok n ∧
      ∀ m ∈ n.walk, ∃ a, m.span = some a ∧ s.HasPlace a.first ∧ s.HasPlace a.last) ∧
    ∃ e f, s'.parse {} = .error e ∧ e.fault? = .ok f ∧ f.location = ⟨"x", 3, 1, 4⟩ ∧
      s'.HasPlace f.location := by
  intro s s'
  have hok : (s.parse {}).isOk = true := by decide +kernel
  let e : Failure := .lexical .lonePoint ⟨"x", 3, 1, 4⟩
  have he : s'.parse {} = .error e := parse_of_failure? (by decide +kernel)
  constructor
  · cases hn : s.parse {} with
    | error e => rw [hn] at hok; cases hok
    | ok n => exact ⟨n, rfl, (places s {}).2.2.2.2.2.1 n hn⟩
  · obtain ⟨f, hf, hplace, _⟩ := (places s' {}).2.2.2.2.2.2 e he
    cases (Failure.fault?_lexical _ _).symm.trans hf
    exact ⟨e, _, he, hf, rfl, hplace⟩

end Source
end LambdaReader
