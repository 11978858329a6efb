import Thompson.Pattern.Cursor
import Thompson.Pattern.Compile

/-!
Reading by the rules of the grammar, each a function that calls the others: an
alternation is its first term, and behind a bar the alternation of the rest. Every
rule gives back the place where it stopped, which is never before the place where it
began; a factor stops strictly later. That is why the recursion ends.
-/
namespace Thompson.Descent

variable {σ α β : Type}

/-- A value, the supply after it, and the place where reading goes on, with fewer than
    `bound` characters ahead. -/
structure Parsed (σ α : Type) (bound : Nat) where
  value : α
  supply : σ
  place : Cursor
  fewer : place.rest.length < bound

def Parsed.weaken {m n : Nat} (p : Parsed σ α m) (h : m ≤ n) : Parsed σ α n :=
  { p with fewer := Nat.lt_of_lt_of_le p.fewer h }

variable (K : Construction σ α β)

def stars (offset : Nat) (s : σ) (value : α) : (rest : List Char) → Parsed σ α (rest.length + 1)
  | '*' :: rest =>
    let (repeated, s') := K.repetition value s
    (stars (offset + '*'.utf8Size) s' repeated rest).weaken (Nat.le_succ _)
  | rest => ⟨value, s, ⟨offset, rest⟩, Nat.lt_succ_self _⟩

mutual

def regex (limit : Option Nat) (depth : Nat) (k : Cursor) (s : σ) :
    Except PatternError (Parsed σ α (k.rest.length + 1)) :=
  match term limit depth k s with
  | .error e => .error e
  | .ok t =>
    match h : t.place.rest with
    | '|' :: rest =>
      match regex limit depth ⟨t.place.offset + '|'.utf8Size, rest⟩ t.supply with
      | .error e => .error e
      | .ok r =>
        let (joined, s') := K.union (K.stamp t.value) r.value r.supply
        .ok ⟨joined, s', r.place, by
          have := t.fewer; have := r.fewer; simp_all only [List.length_cons]; omega⟩
    | _ => .ok { t with value := K.stamp t.value }
termination_by (k.rest.length, 3)
decreasing_by
  · exact Prod.Lex.right _ (by decide)
  · have := t.fewer
    simp only [h, List.length_cons] at this
    exact Prod.Lex.left _ _ (by omega)

def term (limit : Option Nat) (depth : Nat) (k : Cursor) (s : σ) :
    Except PatternError (Parsed σ α (k.rest.length + 1)) :=
  let (empty, s') := K.empty s
  factors limit depth empty k s'
termination_by (k.rest.length, 2)

/-- Factors up to a bar, a closing parenthesis or the end, joined to the value so far. -/
def factors (limit : Option Nat) (depth : Nat) (value : α) (k : Cursor) (s : σ) :
    Except PatternError (Parsed σ α (k.rest.length + 1)) :=
  if k.rest.head? = none ∨ k.nextIs '|' ∨ k.nextIs ')' then
    .ok ⟨value, s, k, Nat.lt_succ_self _⟩
  else
    match factor limit depth k s with
    | .error e => .error e
    | .ok f =>
      match factors limit depth (K.concatenate value f.value) f.place f.supply with
      | .error e => .error e
      | .ok r => .ok (r.weaken (Nat.succ_le_succ (Nat.le_of_lt f.fewer)))
termination_by (k.rest.length, 1)
decreasing_by
  · exact Prod.Lex.right _ (by decide)
  · exact Prod.Lex.left _ _ f.fewer

def factor (limit : Option Nat) (depth : Nat) (k : Cursor) (s : σ) :
    Except PatternError (Parsed σ α k.rest.length) :=
  match h : k.rest with
  | [] => .error (.inputEnds k.offset)
  | '(' :: rest =>
    match Reader.depthError? limit depth k.offset with
    | some e => .error e
    | none =>
      if rest = [] then .error (.inputEnds (k.offset + '('.utf8Size))
      else
        match regex limit (depth + 1) ⟨k.offset + '('.utf8Size, rest⟩ s with
        | .error e => .error e
        | .ok r =>
          match closed : r.place.rest with
          | ')' :: behind =>
            .ok ((stars K (r.place.offset + ')'.utf8Size) r.supply r.value behind).weaken (by
              have := r.fewer
              simp_all only [List.length_cons]
              omega))
          | _ => .error (.unterminatedGroup k.offset r.place.offset)
  | c :: rest =>
    if isSymbol c ∨ c = emptyMark then
      let (value, s') := K.primitive c s
      .ok (stars K (k.offset + c.utf8Size) s' value rest)
    else .error (.unexpected .symbol (some c) k.offset)
termination_by (k.rest.length, 0)
decreasing_by
  simp only [h, List.length_cons]
  exact Prod.Lex.left _ _ (Nat.lt_succ_self _)

end

def read (limit : Option Nat) (s : σ) (text : List Char) : Except PatternError α :=
  match regex K limit 0 (.ofText text) s with
  | .error e => .error e
  | .ok r =>
    match r.place.rest with
    | [] => .ok r.value
    | c :: _ => .error (.unexpected .endOfInput (some c) r.place.offset)

end Thompson.Descent
