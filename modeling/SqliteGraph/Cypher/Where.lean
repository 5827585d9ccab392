import SqliteGraph.Cypher.Query

/-! The WHERE clause: its expression parser, and the disjunctive form that queries keep. -/
namespace SqliteGraph.Cypher
open Lib

inductive WhereExpr
  | atom (clause : WhereClause)
  | and (terms : List WhereExpr)
  | or (terms : List WhereExpr)
  deriving Repr

section Predicates

def detectWhereOp (part : Text) : Option (WhereOp × Nat) :=
  if contains part "=~".toList then some (.regex, 2)
  else if contains part "<>".toList || contains part "!=".toList then some (.notEq, 2)
  else if contains part ">=".toList then some (.greaterEq, 2)
  else if contains part "<=".toList then some (.lessEq, 2)
  else if contains part ">".toList then some (.greaterThan, 1)
  else if contains part "<".toList then some (.lessThan, 1)
  else if contains part "=".toList then some (.eq, 1)
  else none

def findWhereOp (part : Text) : WhereOp → Option Nat
  | .regex => find "=~".toList part
  | .notEq => if contains part "<>".toList then find "<>".toList part else find "!=".toList part
  | .greaterEq => find ">=".toList part
  | .lessEq => find "<=".toList part
  | .greaterThan => find ">".toList part
  | .lessThan => find "<".toList part
  | .eq => find "=".toList part

def parseSinglePredicate (part : Text) : ParseM (Option WhereClause) :=
  match detectWhereOp part with
  | none => .ok none
  | some (op, opLen) =>
    match findWhereOp part op with
    | none => .ok none
    | some opPos => do
      let left := trim (← upTo part opPos)
      let right := unquote (← onwards part (opPos + opLen))
      match find ".".toList left with
      | none => return none
      | some dotPos =>
        let var := trim (← upTo left dotPos)
        let field := trim (← onwards left (dotPos + 1))
        return some ⟨.ofList var, .ofList field, op, .ofList right⟩

end Predicates

section Expressions

/-- `u8::is_ascii_whitespace`. -/
def isAsciiWhitespace (c : Char) : Bool := decide (c.toNat ∈ [0x20, 0x09, 0x0A, 0x0C, 0x0D])

def skipWs (s : Text) : Text := s.dropWhile isAsciiWhitespace

/-- The keyword comes next in either case, and no longer word. -/
def peekKeyword (kw s : Text) : Bool :=
  decide ((s.take kw.length).map Char.toLower = kw.map Char.toLower) &&
    match (s.drop kw.length).head? with
    | some next => !(next.isAlphanum || next == '_')
    | none => true

/-- What follows the keyword, if it comes next after blanks. -/
def consumeKeyword (kw s : Text) : Option Text :=
  let s := skipWs s
  if peekKeyword kw s then some (s.drop kw.length) else none

/-- The text of a predicate and what follows: it ends before AND or OR, at a closing parenthesis
or with the input, but not within quotes. -/
def scanAtom : Option Char → Text → Text × Text
  | _, [] => ([], [])
  | some quote, c :: s =>
    let (atom, rest) := scanAtom (if c = quote then none else some quote) s
    (c :: atom, rest)
  | none, c :: s =>
    if c = '"' ∨ c = '\'' then
      let (atom, rest) := scanAtom (some c) s
      (c :: atom, rest)
    else if c = ')' then ([], c :: s)
    else if isAsciiWhitespace c ∧
        (peekKeyword "AND".toList (skipWs s) ∨ peekKeyword "OR".toList (skipWs s)) then ([], c :: s)
    else
      let (atom, rest) := scanAtom none s
      (c :: atom, rest)

/-- A single term stands for itself. -/
def joinTerms (join : List WhereExpr → WhereExpr) (first : WhereExpr) :
    List WhereExpr → WhereExpr
  | [] => first
  | terms => join (first :: terms)

def parseAtom (s : Text) : ParseM (WhereExpr × Text) := do
  let (atom, rest) := scanAtom none s
  let atom := trim atom
  if atom.isEmpty then fail "empty predicate in WHERE"
  else do
    let clause ← parseSinglePredicate atom
    let clause ← orFail ("invalid predicate in WHERE: `" ++ .ofList atom ++ "`") clause
    return (.atom clause, rest)

mutual

/-- `WhereParser::parse_or`, with the rest of the input in place of the position. -/
def parseOr : Nat → Text → ParseM (WhereExpr × Text)
  | 0, _ => .error .outOfFuel
  | fuel + 1, s => do
    let (first, s) ← parseAnd fuel s
    let (terms, s) ← parseOrTerms fuel s
    return (joinTerms .or first terms, s)

def parseOrTerms : Nat → Text → ParseM (List WhereExpr × Text)
  | 0, _ => .error .outOfFuel
  | fuel + 1, s =>
    match consumeKeyword "OR".toList s with
    | none => .ok ([], skipWs s)
    | some s => do
      let (term, s) ← parseAnd fuel s
      let (terms, s) ← parseOrTerms fuel s
      return (term :: terms, s)

def parseAnd : Nat → Text → ParseM (WhereExpr × Text)
  | 0, _ => .error .outOfFuel
  | fuel + 1, s => do
    let (first, s) ← parsePrimary fuel s
    let (terms, s) ← parseAndTerms fuel s
    return (joinTerms .and first terms, s)

def parseAndTerms : Nat → Text → ParseM (List WhereExpr × Text)
  | 0, _ => .error .outOfFuel
  | fuel + 1, s =>
    match consumeKeyword "AND".toList s with
    | none => .ok ([], skipWs s)
    | some s => do
      let (term, s) ← parsePrimary fuel s
      let (terms, s) ← parseAndTerms fuel s
      return (term :: terms, s)

def parsePrimary : Nat → Text → ParseM (WhereExpr × Text)
  | 0, _ => .error .outOfFuel
  | fuel + 1, s =>
    match skipWs s with
    | '(' :: s => do
      let (inner, s) ← parseOr fuel s
      match skipWs s with
      | ')' :: s => return (inner, s)
      | _ => fail "expected closing ')' in WHERE"
    | s => parseAtom s

end

end Expressions

section NormalForm

/-- Each group so far, extended by each group of the next term. -/
def distribute (acc groups : List (List WhereClause)) : List (List WhereClause) :=
  acc.flatMap fun existing => groups.map fun group => existing ++ group

mutual

def whereExprToDnf : WhereExpr → List (List WhereClause)
  | .atom c => [[c]]
  | .or terms => orGroups terms
  | .and terms => andGroups [[]] terms

def orGroups : List WhereExpr → List (List WhereClause)
  | [] => []
  | t :: terms => whereExprToDnf t ++ orGroups terms

def andGroups (acc : List (List WhereClause)) : List WhereExpr → List (List WhereClause)
  | [] => acc
  | t :: terms => andGroups (distribute acc (whereExprToDnf t)) terms

end

end NormalForm

/-- Each level of the grammar and each term takes a round. -/
def whereFuel (input : Text) : Nat := 3 * input.length + 3

def parseWhereClauses (input : Text) : ParseM (List (List WhereClause)) := do
  let (expr, rest) ← parseOr (whereFuel input) input
  let rest := skipWs rest
  if rest.isEmpty then return whereExprToDnf expr
  else fail ("trailing input in WHERE: `" ++ .ofList rest ++ "`")

end SqliteGraph.Cypher
