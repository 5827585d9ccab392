import SqliteGraph.Cypher.Where

/-! The WHERE parser follows the grammar of its comment, and the disjunctive form keeps the meaning. -/
namespace SqliteGraph.Cypher
open Lib

section Meaning

mutual

/-- The value of an expression where its predicates have the given values. -/
def WhereExpr.holds (truth : WhereClause → Bool) : WhereExpr → Bool
  | .atom c => truth c
  | .and terms => allHold truth terms
  | .or terms => anyHolds truth terms

def allHold (truth : WhereClause → Bool) : List WhereExpr → Bool
  | [] => true
  | t :: terms => t.holds truth && allHold truth terms

def anyHolds (truth : WhereClause → Bool) : List WhereExpr → Bool
  | [] => false
  | t :: terms => t.holds truth || anyHolds truth terms

end

/-- The value of a disjunction of conjunctions. -/
def groupsHold (truth : WhereClause → Bool) (groups : List (List WhereClause)) : Bool :=
  groups.any fun group => group.all truth

variable {truth : WhereClause → Bool} {acc groups : List (List WhereClause)}

theorem groupsHold_append : groupsHold truth (acc ++ groups) =
    (groupsHold truth acc || groupsHold truth groups) := by
  simp [groupsHold]

theorem groupsHold_distribute : groupsHold truth (distribute acc groups) =
    (groupsHold truth acc && groupsHold truth groups) := by
  rw [Bool.eq_iff_iff]
  simp only [groupsHold, distribute, List.any_eq_true, List.mem_flatMap, List.mem_map,
    Bool.and_eq_true]
  constructor
  · rintro ⟨_, ⟨existing, he, group, hg, rfl⟩, hall⟩
    rw [List.all_append, Bool.and_eq_true] at hall
    exact ⟨⟨existing, he, hall.1⟩, ⟨group, hg, hall.2⟩⟩
  · rintro ⟨⟨existing, he, hall⟩, ⟨group, hg, hall'⟩⟩
    refine ⟨existing ++ group, ⟨existing, he, group, hg, rfl⟩, ?_⟩
    rw [List.all_append, hall, hall', Bool.and_self]

mutual

theorem holds_whereExprToDnf (truth : WhereClause → Bool) :
    ∀ expr : WhereExpr, groupsHold truth (whereExprToDnf expr) = expr.holds truth
  | .atom c => by simp [whereExprToDnf, groupsHold, WhereExpr.holds]
  | .and terms => by
    rw [whereExprToDnf, holds_andGroups truth terms, WhereExpr.holds]
    simp [groupsHold]
  | .or terms => by rw [whereExprToDnf, holds_orGroups truth terms, WhereExpr.holds]

theorem holds_orGroups (truth : WhereClause → Bool) :
    ∀ terms : List WhereExpr, groupsHold truth (orGroups terms) = anyHolds truth terms
  | [] => rfl
  | t :: terms => by
    rw [orGroups, groupsHold_append, holds_whereExprToDnf truth t, holds_orGroups truth terms,
      anyHolds]

theorem holds_andGroups (truth : WhereClause → Bool) : ∀ (terms : List WhereExpr)
    {acc : List (List WhereClause)}, groupsHold truth (andGroups acc terms) =
      (groupsHold truth acc && allHold truth terms)
  | [], acc => by rw [andGroups, allHold, Bool.and_true]
  | t :: terms, acc => by
    rw [andGroups, holds_andGroups truth terms, groupsHold_distribute,
      holds_whereExprToDnf truth t, allHold, Bool.and_assoc]

end

end Meaning

inductive Token
  | opening
  | closing
  | and
  | or
  | predicate (text : Text) (clause : WhereClause)

inductive Level
  | or
  | and
  | primary

/-- The grammar: at each level the tokens and the terms they stand for. OR joins what AND has joined,
and a group in parentheses is a single term again. -/
inductive Derives : Level → List Token → List WhereExpr → Prop
  | predicate {text clause} : Derives .primary [.predicate text clause] [.atom clause]
  | group {ts e es} : Derives .or ts (e :: es) →
      Derives .primary (.opening :: (ts ++ [.closing])) [joinTerms .or e es]
  | conjunct {ts e} : Derives .primary ts [e] → Derives .and ts [e]
  | and {ts ts' e es} : Derives .primary ts [e] → Derives .and ts' es →
      Derives .and (ts ++ .and :: ts') (e :: es)
  | disjunct {ts e es} : Derives .and ts (e :: es) → Derives .or ts [joinTerms .and e es]
  | or {ts ts' e es es'} : Derives .and ts (e :: es) → Derives .or ts' es' →
      Derives .or (ts ++ .or :: ts') (joinTerms .and e es :: es')

/-- How a token is written: keywords in either case, a predicate as a text that is one. -/
def Token.Spelled : Token → Text → Prop
  | .opening, s => s = ['(']
  | .closing, s => s = [')']
  | .and, s => s.map Char.toLower = "and".toList
  | .or, s => s.map Char.toLower = "or".toList
  | .predicate text clause, s => s = text ∧ parseSinglePredicate (trim text) = .ok (some clause)

/-- The tokens of a text, between which there may be blanks. -/
inductive Spells : List Token → Text → Prop
  | nil {blanks} : (∀ c ∈ blanks, isAsciiWhitespace c) → Spells [] blanks
  | cons {blanks s rest} {t : Token} {ts} : (∀ c ∈ blanks, isAsciiWhitespace c) → t.Spelled s →
      Spells ts rest → Spells (t :: ts) (blanks ++ s ++ rest)

section Soundness
variable {s rest mid p p' : Text} {ts ts' : List Token} {fuel : Nat} {e : WhereExpr}
  {es : List WhereExpr}

/-- The tokens are written at the front of the text. -/
def SpellsTo (ts : List Token) (s rest : Text) : Prop := ∃ p, s = p ++ rest ∧ Spells ts p

theorem Spells.skip {blanks : Text} (hb : ∀ c ∈ blanks, isAsciiWhitespace c) (h : Spells ts p) :
    Spells ts (blanks ++ p) := by
  cases h with
  | nil hp => exact .nil (List.forall_mem_append.mpr ⟨hb, hp⟩)
  | cons hp ht hrest =>
    rw [← List.append_assoc, ← List.append_assoc]
    exact .cons (List.forall_mem_append.mpr ⟨hb, hp⟩) ht hrest

theorem Spells.append (h : Spells ts p) (h' : Spells ts' p') : Spells (ts ++ ts') (p ++ p') := by
  induction h with
  | nil hb => exact h'.skip hb
  | cons hb ht _ ih =>
    rw [List.append_assoc]
    exact .cons hb ht ih

theorem SpellsTo.trans (h : SpellsTo ts s mid) (h' : SpellsTo ts' mid rest) :
    SpellsTo (ts ++ ts') s rest := by
  obtain ⟨p, rfl, hp⟩ := h
  obtain ⟨p', rfl, hp'⟩ := h'
  exact ⟨p ++ p', (List.append_assoc ..).symm, hp.append hp'⟩

theorem spellsTo_skipWs : SpellsTo [] s (skipWs s) :=
  ⟨s.takeWhile isAsciiWhitespace, List.takeWhile_append_dropWhile.symm,
    .nil fun _ hc => List.mem_takeWhile_imp hc⟩

theorem spellsTo_token {t : Token} (h : t.Spelled p) : SpellsTo [t] (p ++ rest) rest := by
  have hnone : ∀ c ∈ ([] : Text), isAsciiWhitespace c := by simp
  exact ⟨p, rfl, by simpa using Spells.cons hnone h (.nil hnone)⟩

theorem spellsTo_mark {t : Token} {c : Char} (h : skipWs s = c :: rest) (ht : t.Spelled [c]) :
    SpellsTo [t] s rest := by
  have hmark : SpellsTo [t] ([c] ++ rest) rest := spellsTo_token ht
  rw [List.singleton_append, ← h] at hmark
  exact spellsTo_skipWs.trans hmark

theorem spellsTo_consumeKeyword {kw : Text} {t : Token}
    (ht : ∀ p : Text, p.map Char.toLower = kw.map Char.toLower → t.Spelled p)
    (h : consumeKeyword kw s = some rest) : SpellsTo [t] s rest := by
  simp only [consumeKeyword] at h
  split at h
  · rename_i hpeek
    cases h
    rw [peekKeyword, Bool.and_eq_true, decide_eq_true_eq] at hpeek
    have hkw : SpellsTo [t] ((skipWs s).take kw.length ++ (skipWs s).drop kw.length)
        ((skipWs s).drop kw.length) := spellsTo_token (ht _ hpeek.1)
    rw [List.take_append_drop] at hkw
    exact spellsTo_skipWs.trans hkw
  · cases h

theorem scanAtom_append (quote : Option Char) (s : Text) :
    (scanAtom quote s).1 ++ (scanAtom quote s).2 = s := by
  induction s generalizing quote with
  | nil => cases quote <;> rfl
  | cons c s ih =>
    cases quote with
    | some q => simp only [scanAtom, List.cons_append, ih]
    | none =>
      simp only [scanAtom]
      split
      · simp only [List.cons_append, ih]
      · split
        · rfl
        · split
          · rfl
          · simp only [List.cons_append, ih]

theorem spellsTo_parseAtom (h : parseAtom s = .ok (e, rest)) :
    ∃ ts, Derives .primary ts [e] ∧ SpellsTo ts s rest := by
  rw [parseAtom] at h
  cases hscan : scanAtom none s with
  | mk atom after =>
    have hs := scanAtom_append none s
    rw [hscan] at h hs
    simp only at h hs
    split at h
    · cases h
    · obtain ⟨found, hfound, h⟩ := except_bind_eq_ok h
      obtain ⟨clause, hclause, h⟩ := except_bind_eq_ok h
      cases h
      cases found with
      | none => cases hclause
      | some c =>
        cases hclause
        refine ⟨[.predicate atom clause], .predicate, ?_⟩
        rw [← hs]
        exact spellsTo_token ⟨rfl, hfound⟩

/-- What the terms after the first one are written as. -/
def TailDerives (level : Level) (join : Token) (ts : List Token) (terms : List WhereExpr) : Prop :=
  (ts = [] ∧ terms = []) ∨ ∃ ts', ts = join :: ts' ∧ Derives level ts' terms

/-- Each of the five procedures reads tokens that the grammar derives. -/
theorem parse_derives (fuel : Nat) :
    (∀ {s e rest}, parseOr fuel s = .ok (e, rest) → ∃ ts first es, e = joinTerms .or first es ∧
      Derives .or ts (first :: es) ∧ SpellsTo ts s rest) ∧
    (∀ {s es rest}, parseOrTerms fuel s = .ok (es, rest) →
      ∃ ts, TailDerives .or .or ts es ∧ SpellsTo ts s rest) ∧
    (∀ {s e rest}, parseAnd fuel s = .ok (e, rest) → ∃ ts first es, e = joinTerms .and first es ∧
      Derives .and ts (first :: es) ∧ SpellsTo ts s rest) ∧
    (∀ {s es rest}, parseAndTerms fuel s = .ok (es, rest) →
      ∃ ts, TailDerives .and .and ts es ∧ SpellsTo ts s rest) ∧
    (∀ {s e rest}, parsePrimary fuel s = .ok (e, rest) →
      ∃ ts, Derives .primary ts [e] ∧ SpellsTo ts s rest) := by
  induction fuel with
  | zero =>
    refine ⟨?_, ?_, ?_, ?_, ?_⟩ <;> intro s e rest h <;> cases h
  | succ fuel ih =>
    obtain ⟨hor, horTerms, hand, handTerms, hprimary⟩ := ih
    refine ⟨?_, ?_, ?_, ?_, ?_⟩
    · intro s e rest h
      rw [parseOr] at h
      obtain ⟨⟨e₁, mid⟩, h₁, h⟩ := except_bind_eq_ok h
      obtain ⟨⟨terms, rest'⟩, h₂, h⟩ := except_bind_eq_ok h
      cases h
      obtain ⟨ts₁, first, es, rfl, hd₁, hs₁⟩ := hand h₁
      obtain ⟨ts₂, htail, hs₂⟩ := horTerms h₂
      rcases htail with ⟨rfl, rfl⟩ | ⟨ts', rfl, hd₂⟩
      · exact ⟨_, _, [], rfl, (List.append_nil ts₁).symm ▸ .disjunct hd₁, hs₁.trans hs₂⟩
      · exact ⟨_, _, _, rfl, .or hd₁ hd₂, hs₁.trans hs₂⟩
    · intro s es rest h
      rw [parseOrTerms] at h
      cases hkw : consumeKeyword "OR".toList s with
      | none =>
        rw [hkw] at h
        cases h
        exact ⟨[], .inl ⟨rfl, rfl⟩, spellsTo_skipWs⟩
      | some after =>
        rw [hkw] at h
        obtain ⟨⟨e₁, mid⟩, h₁, h⟩ := except_bind_eq_ok h
        obtain ⟨⟨terms, rest'⟩, h₂, h⟩ := except_bind_eq_ok h
        cases h
        have hspelled : ∀ p : Text, p.map Char.toLower = "OR".toList.map Char.toLower →
            Token.or.Spelled p := fun p hp => hp.trans (by decide)
        have hs := spellsTo_consumeKeyword hspelled hkw
        obtain ⟨ts₁, first, es, rfl, hd₁, hs₁⟩ := hand h₁
        obtain ⟨ts₂, htail, hs₂⟩ := horTerms h₂
        refine ⟨[.or] ++ (ts₁ ++ ts₂), .inr ⟨ts₁ ++ ts₂, rfl, ?_⟩, hs.trans (hs₁.trans hs₂)⟩
        rcases htail with ⟨rfl, rfl⟩ | ⟨ts', rfl, hd₂⟩
        · rw [List.append_nil]
          exact .disjunct hd₁
        · exact .or hd₁ hd₂
    · intro s e rest h
      rw [parseAnd] at h
      obtain ⟨⟨e₁, mid⟩, h₁, h⟩ := except_bind_eq_ok h
      obtain ⟨⟨terms, rest'⟩, h₂, h⟩ := except_bind_eq_ok h
      cases h
      obtain ⟨ts₁, hd₁, hs₁⟩ := hprimary h₁
      obtain ⟨ts₂, htail, hs₂⟩ := handTerms h₂
      rcases htail with ⟨rfl, rfl⟩ | ⟨ts', rfl, hd₂⟩
      · exact ⟨_, _, [], rfl, (List.append_nil ts₁).symm ▸ .conjunct hd₁, hs₁.trans hs₂⟩
      · exact ⟨_, _, _, rfl, .and hd₁ hd₂, hs₁.trans hs₂⟩
    · intro s es rest h
      rw [parseAndTerms] at h
      cases hkw : consumeKeyword "AND".toList s with
      | none =>
        rw [hkw] at h
        cases h
        exact ⟨[], .inl ⟨rfl, rfl⟩, spellsTo_skipWs⟩
      | some after =>
        rw [hkw] at h
        obtain ⟨⟨e₁, mid⟩, h₁, h⟩ := except_bind_eq_ok h
        obtain ⟨⟨terms, rest'⟩, h₂, h⟩ := except_bind_eq_ok h
        cases h
        have hspelled : ∀ p : Text, p.map Char.toLower = "AND".toList.map Char.toLower →
            Token.and.Spelled p := fun p hp => hp.trans (by decide)
        have hs := spellsTo_consumeKeyword hspelled hkw
        obtain ⟨ts₁, hd₁, hs₁⟩ := hprimary h₁
        obtain ⟨ts₂, htail, hs₂⟩ := handTerms h₂
        refine ⟨[.and] ++ (ts₁ ++ ts₂), .inr ⟨ts₁ ++ ts₂, rfl, ?_⟩, hs.trans (hs₁.trans hs₂)⟩
        rcases htail with ⟨rfl, rfl⟩ | ⟨ts', rfl, hd₂⟩
        · rw [List.append_nil]
          exact .conjunct hd₁
        · exact .and hd₁ hd₂
    · intro s e rest h
      rw [parsePrimary] at h
      split at h
      · rename_i after hafter
        obtain ⟨⟨inner, mid⟩, h₁, h⟩ := except_bind_eq_ok h
        simp only at h
        split at h
        · rename_i close hclose
          cases h
          obtain ⟨ts, first, es, rfl, hd, hs⟩ := hor h₁
          refine ⟨_, .group hd, ?_⟩
          have hopen : SpellsTo [.opening] s after := spellsTo_mark hafter rfl
          have hend : SpellsTo [.closing] mid rest := spellsTo_mark hclose rfl
          exact hopen.trans (hs.trans hend)
        · cases h
      · obtain ⟨ts, hd, hs⟩ := spellsTo_parseAtom h
        exact ⟨ts, hd, spellsTo_skipWs.trans hs⟩

end Soundness

section Printing

def Token.print : Token → Text
  | .opening => ['(']
  | .closing => [')']
  | .and => " AND ".toList
  | .or => " OR ".toList
  | .predicate text _ => text

/-- An expression as it is usually written. -/
def printTokens (ts : List Token) : Text := ts.flatMap Token.print

/-- The quote that is open behind a text. -/
def quoteAfter : Option Char → Text → Option Char
  | quote, [] => quote
  | some quote, c :: s => quoteAfter (if c = quote then none else some quote) s
  | none, c :: s => quoteAfter (if c = '"' ∨ c = '\'' then some c else none) s

/-- The text of a predicate that is scanned as a whole, with its quotes closed and no blanks around. -/
structure PlainText (text : Text) : Prop where
  scanned : scanAtom none text = (text, [])
  closed : quoteAfter none text = none
  head : ∃ c rest, text = c :: rest ∧ c ≠ '(' ∧ isAsciiWhitespace c = false
  last : ∀ c, text.getLast? = some c → isAsciiWhitespace c = false

/-- The text of a predicate is plain, and it is that predicate. -/
def Token.Printable : Token → Prop
  | .predicate text clause =>
    PlainText text ∧ parseSinglePredicate (trim text) = .ok (some clause)
  | _ => True

/-- What follows an operand. -/
inductive Stop : Text → Prop
  | nil : Stop []
  | closing {rest} : Stop (')' :: rest)
  | and {rest} : Stop (" AND ".toList ++ rest)
  | or {rest} : Stop (" OR ".toList ++ rest)

variable {s w rest text kw : Text} {quote : Option Char} {ts : List Token} {e : WhereExpr}
  {es : List WhereExpr} {fuel : Nat}

theorem Stop.head (h : Stop rest) {c : Char} (hc : rest.head? = some c) : c = ' ' ∨ c = ')' := by
  cases h <;> cases hc
  · exact .inr rfl
  · exact .inl rfl
  · exact .inl rfl

theorem skipWs_of_head {c : Char} (hc : isAsciiWhitespace c = false) :
    skipWs (c :: s) = c :: s := by
  rw [skipWs, List.dropWhile_cons_of_neg (by simp [hc])]

theorem skipWs_blank : skipWs (' ' :: s) = skipWs s :=
  List.dropWhile_cons_of_pos (by decide)

/-- A keyword that runs into what follows an operand is none. -/
theorem peekKeyword_append (hkw : ∀ c ∈ kw.map Char.toLower, c ≠ ' ' ∧ c ≠ ')') (h : Stop rest)
    (hpeek : peekKeyword kw (w ++ rest) = true) : peekKeyword kw w = true := by
  rw [peekKeyword, Bool.and_eq_true, decide_eq_true_eq] at hpeek ⊢
  obtain ⟨htake, hnext⟩ := hpeek
  rcases Nat.lt_or_ge w.length kw.length with hlt | hge
  · exfalso
    cases hrest : rest with
    | nil =>
      have hlen := congrArg List.length htake
      simp only [hrest, List.append_nil, List.length_map, List.length_take] at hlen
      omega
    | cons c tail =>
      have hc := h.head (c := c) (by rw [hrest]; rfl)
      have hmem : c.toLower ∈ kw.map Char.toLower := by
        rw [← htake, hrest]
        refine List.mem_map.mpr ⟨c, ?_, rfl⟩
        rw [List.take_append, List.take_of_length_le hlt.le]
        obtain ⟨k, hk⟩ : ∃ k, kw.length - w.length = k + 1 := ⟨kw.length - w.length - 1, by omega⟩
        rw [hk, List.take_succ_cons]
        simp
      have hlower : c.toLower = c := by rcases hc with rfl | rfl <;> decide
      rw [hlower] at hmem
      obtain ⟨h₁, h₂⟩ := hkw c hmem
      exact hc.elim h₁ h₂
  · rw [List.take_append_of_le_length hge] at htake
    refine ⟨htake, ?_⟩
    rw [List.drop_append_of_le_length hge] at hnext
    cases hd : w.drop kw.length with
    | nil => rfl
    | cons c tail =>
      rw [hd] at hnext
      exact hnext

theorem and_letters : ∀ c ∈ "AND".toList.map Char.toLower, c ≠ ' ' ∧ c ≠ ')' := by
  rw [show "AND".toList.map Char.toLower = ['a', 'n', 'd'] by decide]
  simp

theorem or_letters : ∀ c ∈ "OR".toList.map Char.toLower, c ≠ ' ' ∧ c ≠ ')' := by
  rw [show "OR".toList.map Char.toLower = ['o', 'r'] by decide]
  simp

theorem skipWs_append {c : Char} (hmem : c ∈ s) (hc : isAsciiWhitespace c = false) :
    skipWs (s ++ rest) = skipWs s ++ rest := by
  induction s with
  | nil => cases hmem
  | cons d s ih =>
    cases hd : isAsciiWhitespace d with
    | false => rw [List.cons_append, skipWs_of_head hd, skipWs_of_head hd, List.cons_append]
    | true =>
      have hne : c ≠ d := by
        rintro rfl
        rw [hd] at hc
        cases hc
      have hmem' := (List.mem_cons.mp hmem).resolve_left hne
      rw [List.cons_append, skipWs, skipWs, List.dropWhile_cons_of_pos hd,
        List.dropWhile_cons_of_pos hd]
      exact ih hmem'

theorem scanAtom_stop (h : Stop rest) : scanAtom none rest = ([], rest) := by
  cases h with
  | nil => rfl
  | closing => rfl
  | and => rfl
  | or => rfl

/-- The scan of a plain text ends where the operand does. -/
theorem scanAtom_plain (h : Stop rest) (hscan : scanAtom quote text = (text, []))
    (hclosed : quoteAfter quote text = none)
    (hlast : ∀ c, text.getLast? = some c → isAsciiWhitespace c = false) :
    scanAtom quote (text ++ rest) = (text, rest) := by
  induction text generalizing quote with
  | nil =>
    cases quote with
    | none => exact scanAtom_stop h
    | some q => cases hclosed
  | cons c text ih =>
    have hlast' : ∀ d, text.getLast? = some d → isAsciiWhitespace d = false := by
      intro d hd
      refine hlast d ?_
      rw [List.getLast?_cons, hd]
      rfl
    have hstep : ∀ {q}, ((c :: (scanAtom q text).1, (scanAtom q text).2) : Text × Text) =
        (c :: text, []) → quoteAfter q text = none →
        scanAtom q (text ++ rest) = (text, rest) := by
      intro q hq hcl
      obtain ⟨h₁, h₂⟩ := Prod.mk.inj hq
      exact ih (Prod.ext (List.cons.inj h₁).2 h₂) hcl hlast'
    cases quote with
    | some q =>
      simp only [scanAtom, quoteAfter, List.cons_append] at hscan hclosed ⊢
      rw [hstep hscan hclosed]
    | none =>
      simp only [scanAtom, quoteAfter, List.cons_append] at hscan hclosed ⊢
      split at hscan
      · rename_i hq
        rw [if_pos hq] at hclosed
        rw [if_pos hq, hstep hscan hclosed]
      · rename_i hq
        rw [if_neg hq] at hclosed
        rw [if_neg hq]
        split at hscan
        · cases hscan
        · rename_i hparen
          rw [if_neg hparen]
          split at hscan
          · cases hscan
          · rename_i hkw
            rw [if_neg, hstep hscan hclosed]
            rintro ⟨hws, hpeek⟩
            refine hkw ⟨hws, ?_⟩
            cases hl : text.getLast? with
            | none =>
              rw [List.getLast?_eq_none_iff] at hl
              have := hlast c (by rw [hl]; rfl)
              rw [hws] at this
              cases this
            | some d =>
              rw [skipWs_append (List.mem_of_getLast? hl) (hlast' d hl)] at hpeek
              exact hpeek.imp (peekKeyword_append and_letters h) (peekKeyword_append or_letters h)

theorem parsePrimary_blank : parsePrimary fuel (' ' :: s) = parsePrimary fuel s := by
  cases fuel with
  | zero => rfl
  | succ fuel => rw [parsePrimary, parsePrimary, skipWs_blank]

theorem parseAnd_blank : parseAnd fuel (' ' :: s) = parseAnd fuel s := by
  cases fuel with
  | zero => rfl
  | succ fuel => rw [parseAnd, parseAnd, parsePrimary_blank]

theorem consumeKeyword_and : consumeKeyword "AND".toList (" AND ".toList ++ s) = some (' ' :: s) :=
  rfl

theorem consumeKeyword_or : consumeKeyword "OR".toList (skipWs (" OR ".toList ++ s)) =
    some (' ' :: s) := rfl

theorem parsePrimary_plain {clause : WhereClause} (hplain : PlainText text)
    (hclause : parseSinglePredicate (trim text) = .ok (some clause)) (h : Stop rest) :
    parsePrimary (fuel + 1) (text ++ rest) = .ok (.atom clause, rest) := by
  obtain ⟨c, tail, htext, hparen, hws⟩ := hplain.head
  have hskip : skipWs (text ++ rest) = text ++ rest := by
    rw [htext, List.cons_append, skipWs_of_head hws]
  have hnonempty : (trim text).isEmpty = false := by
    cases htrim : trim text with
    | nil =>
      rw [htrim] at hclause
      cases hclause
    | cons => rfl
  rw [parsePrimary, hskip]
  split
  · rename_i after hafter
    rw [htext, List.cons_append] at hafter
    cases hafter
    exact absurd rfl hparen
  · rename_i hafter
    rw [parseAtom, scanAtom_plain h hplain.scanned hplain.closed hplain.last]
    simp only [hnonempty, hclause]
    rfl

/-- The parser reads an operand and leaves what follows it. -/
def PrimaryRuns (s rest : Text) (e : WhereExpr) (bound : Nat) : Prop :=
  ∀ fuel ≥ bound, parsePrimary fuel s = .ok (e, rest)

/-- The parser reads the operands of ANDs. -/
def AndRuns (s rest : Text) (es : List WhereExpr) (bound : Nat) : Prop :=
  ∀ fuel ≥ bound, ∃ first terms mid, es = first :: terms ∧
    parsePrimary fuel s = .ok (first, mid) ∧ parseAndTerms fuel mid = .ok (terms, skipWs rest)

/-- The parser reads the operands of ORs. -/
def OrRuns (s rest : Text) (es : List WhereExpr) (bound : Nat) : Prop :=
  ∀ fuel ≥ bound, ∃ first terms mid, es = first :: terms ∧
    parseAnd fuel s = .ok (first, mid) ∧ parseOrTerms fuel mid = .ok (terms, skipWs rest)

theorem AndRuns.parseAnd {n : Nat} (h : AndRuns s rest (e :: es) n) (hfuel : n ≤ fuel) :
    parseAnd (fuel + 1) s = .ok (joinTerms .and e es, skipWs rest) := by
  obtain ⟨first, terms, mid, heq, h₁, h₂⟩ := h fuel hfuel
  cases heq
  rw [Cypher.parseAnd, h₁]
  simp only [bind, Except.bind, h₂]
  rfl

theorem OrRuns.parseOr {n : Nat} (h : OrRuns s rest (e :: es) n) (hfuel : n ≤ fuel) :
    parseOr (fuel + 1) s = .ok (joinTerms .or e es, skipWs rest) := by
  obtain ⟨first, terms, mid, heq, h₁, h₂⟩ := h fuel hfuel
  cases heq
  rw [Cypher.parseOr, h₁]
  simp only [bind, Except.bind, h₂]
  rfl

/-- What follows the operands of a level, which is no operator of it. -/
def StopAt : Level → Text → Prop
  | .primary, rest => Stop rest
  | .and, rest => rest = [] ∨ (∃ s, rest = ')' :: s) ∨ ∃ s, rest = " OR ".toList ++ s
  | .or, rest => rest = [] ∨ ∃ s, rest = ')' :: s

theorem StopAt.stop {level : Level} (h : StopAt level rest) : Stop rest := by
  cases level with
  | primary => exact h
  | and =>
    rcases h with rfl | ⟨s, rfl⟩ | ⟨s, rfl⟩
    · exact .nil
    · exact .closing
    · exact .or
  | or =>
    rcases h with rfl | ⟨s, rfl⟩
    · exact .nil
    · exact .closing

theorem parseAndTerms_stop (h : StopAt .and rest) :
    parseAndTerms (fuel + 1) rest = .ok ([], skipWs rest) := by
  rw [parseAndTerms]
  rcases h with rfl | ⟨s, rfl⟩ | ⟨s, rfl⟩ <;> rfl

theorem parseOrTerms_stop (h : StopAt .or rest) :
    parseOrTerms (fuel + 1) (skipWs rest) = .ok ([], skipWs rest) := by
  rw [parseOrTerms]
  rcases h with rfl | ⟨s, rfl⟩ <;> rfl

/-- What the parser does at a level, with the fuel that the length of the text asks for. -/
def Runs : Level → Text → Text → List WhereExpr → Nat → Prop
  | .primary, s, rest, es, n => ∀ e, es = [e] → PrimaryRuns s rest e (3 * n)
  | .and, s, rest, es, n => AndRuns s rest es (3 * n + 1)
  | .or, s, rest, es, n => OrRuns s rest es (3 * n + 2)

/-- What the grammar derives is read as it is derived. -/
theorem derives_runs {level : Level} (h : Derives level ts es) (hprint : ∀ t ∈ ts, t.Printable)
    (hstop : StopAt level rest) :
    Runs level (printTokens ts ++ rest) rest es (printTokens ts).length := by
  induction h generalizing rest with
  | @predicate text clause =>
    obtain ⟨hplain, hclause⟩ : PlainText text ∧ _ := hprint _ (List.mem_singleton.mpr rfl)
    rintro e ⟨⟩ fuel hfuel
    obtain ⟨c, tail, htext, -⟩ := hplain.head
    have hpos : 0 < text.length := by rw [htext]; exact Nat.succ_pos _
    have hprinted : printTokens [.predicate text clause] = text := by simp [printTokens, Token.print]
    rw [hprinted] at hfuel ⊢
    obtain ⟨k, rfl⟩ : ∃ k, fuel = k + 1 := ⟨fuel - 1, by omega⟩
    exact parsePrimary_plain hplain hclause hstop
  | @group ts e es _ ih =>
    rintro _ ⟨⟩ fuel hfuel
    have hprinted : printTokens (.opening :: (ts ++ [.closing])) =
        '(' :: (printTokens ts ++ [')']) := by simp [printTokens, Token.print]
    have hts : ∀ t ∈ ts, t.Printable := fun t ht =>
      hprint t (List.mem_cons_of_mem _ (List.mem_append_left _ ht))
    have hclosing : StopAt .or (')' :: rest) := .inr ⟨rest, rfl⟩
    have hruns : OrRuns _ _ (e :: es) _ := ih hts hclosing
    rw [hprinted] at hfuel ⊢
    simp only [List.length_cons, List.length_append, List.length_nil] at hfuel
    obtain ⟨k, rfl⟩ : ∃ k, fuel = k + 1 + 1 := ⟨fuel - 2, by omega⟩
    have hor := hruns.parseOr (show _ ≤ k by omega)
    have hskip : skipWs ('(' :: (printTokens ts ++ [')']) ++ rest) =
        '(' :: (printTokens ts ++ ')' :: rest) := by
      rw [List.cons_append, skipWs_of_head (by decide), List.append_assoc, List.singleton_append]
    rw [parsePrimary, hskip]
    simp only [hor, bind, Except.bind]
    rfl
  | @conjunct ts e _ ih =>
    intro fuel hfuel
    have hprimary := ih hprint hstop.stop e rfl fuel (by omega)
    obtain ⟨k, rfl⟩ : ∃ k, fuel = k + 1 := ⟨fuel - 1, by omega⟩
    exact ⟨e, [], rest, rfl, hprimary, parseAndTerms_stop hstop⟩
  | @and ts ts' e es _ _ ih ih' =>
    intro fuel hfuel
    have hprinted : printTokens (ts ++ .and :: ts') ++ rest =
        printTokens ts ++ (" AND ".toList ++ (printTokens ts' ++ rest)) := by
      simp [printTokens, Token.print]
    have hlen : (printTokens (ts ++ .and :: ts')).length =
        (printTokens ts).length + 5 + (printTokens ts').length := by
      simp [printTokens, Token.print]
      omega
    rw [List.forall_mem_append, List.forall_mem_cons] at hprint
    rw [hlen] at hfuel
    have hoperator : StopAt .primary (" AND ".toList ++ (printTokens ts' ++ rest)) := .and
    have hprimary := ih hprint.1 hoperator e rfl fuel (by omega)
    obtain ⟨k, rfl⟩ : ∃ k, fuel = k + 1 := ⟨fuel - 1, by omega⟩
    obtain ⟨first, terms, mid, rfl, h₁, h₂⟩ := ih' hprint.2.2 hstop k (by omega)
    refine ⟨e, first :: terms, _, rfl, hprinted ▸ hprimary, ?_⟩
    rw [parseAndTerms, consumeKeyword_and]
    simp only [parsePrimary_blank, h₁, bind, Except.bind, h₂]
    rfl
  | @disjunct ts e es _ ih =>
    intro fuel hfuel
    obtain ⟨k, rfl⟩ : ∃ k, fuel = k + 1 := ⟨fuel - 1, by omega⟩
    have hand : AndRuns _ rest (e :: es) _ := ih hprint (hstop.imp_right .inl)
    exact ⟨_, [], _, rfl, hand.parseAnd (by omega), parseOrTerms_stop hstop⟩
  | @or ts ts' e es es' _ _ ih ih' =>
    intro fuel hfuel
    have hprinted : printTokens (ts ++ .or :: ts') ++ rest =
        printTokens ts ++ (" OR ".toList ++ (printTokens ts' ++ rest)) := by
      simp [printTokens, Token.print]
    have hlen : (printTokens (ts ++ .or :: ts')).length =
        (printTokens ts).length + 4 + (printTokens ts').length := by
      simp [printTokens, Token.print]
      omega
    rw [List.forall_mem_append, List.forall_mem_cons] at hprint
    rw [hlen] at hfuel
    obtain ⟨k, rfl⟩ : ∃ k, fuel = k + 1 := ⟨fuel - 1, by omega⟩
    have hoperator : StopAt .and (" OR ".toList ++ (printTokens ts' ++ rest)) :=
      .inr (.inr ⟨_, rfl⟩)
    have hand : AndRuns _ _ (e :: es) _ := ih hprint.1 hoperator
    obtain ⟨first, terms, mid, rfl, h₁, h₂⟩ := ih' hprint.2.2 hstop k (by omega)
    refine ⟨_, first :: terms, _, rfl, hprinted ▸ hand.parseAnd (by omega), ?_⟩
    rw [parseOrTerms, consumeKeyword_or]
    simp only [parseAnd_blank, h₁, bind, Except.bind, h₂]
    rfl

end Printing

/-- The disjunctive form keeps the truth value. Every input that the parser accepts is written as
tokens of the grammar, in which AND binds tighter than OR and parentheses group, and it is read as the
expression they stand for; and every expression that is written so is accepted. -/
theorem where_normal_form :
    (∀ (expr : WhereExpr) (truth : WhereClause → Bool),
      groupsHold truth (whereExprToDnf expr) = expr.holds truth) ∧
    (∀ input groups, parseWhereClauses input = .ok groups → ∃ ts e es, Derives .or ts (e :: es) ∧
      Spells ts input ∧ groups = whereExprToDnf (joinTerms .or e es)) ∧
    (∀ ts e es, Derives .or ts (e :: es) → (∀ t ∈ ts, t.Printable) →
      parseWhereClauses (printTokens ts) = .ok (whereExprToDnf (joinTerms .or e es))) := by
  refine ⟨fun expr truth => holds_whereExprToDnf truth expr, ?_, ?_⟩
  · intro input groups h
    rw [parseWhereClauses] at h
    obtain ⟨⟨expr, rest⟩, hparse, h⟩ := except_bind_eq_ok h
    simp only at h
    split at h
    · rename_i hempty
      cases h
      obtain ⟨ts, e, es, rfl, hderives, hs⟩ := (parse_derives _).1 hparse
      obtain ⟨p, hp, hspells⟩ := hs.trans spellsTo_skipWs
      rw [List.isEmpty_iff.mp hempty, List.append_nil] at hp
      rw [List.append_nil] at hspells
      exact ⟨ts, e, es, hderives, hp ▸ hspells, rfl⟩
    · cases h
  · intro ts e es hderives hprint
    have hruns : OrRuns (printTokens ts ++ []) [] (e :: es) _ :=
      derives_runs hderives hprint (.inl rfl)
    have hparse := hruns.parseOr (Nat.le_refl _)
    rw [List.append_nil] at hparse
    rw [parseWhereClauses, whereFuel, hparse]
    rfl

example : parseWhereClauses "(a.x = 1 OR b.y = 2) AND c.z = 3".toList =
    .ok [[⟨"a", "x", .eq, "1"⟩, ⟨"c", "z", .eq, "3"⟩],
      [⟨"b", "y", .eq, "2"⟩, ⟨"c", "z", .eq, "3"⟩]] := by
  decide +kernel

end SqliteGraph.Cypher
