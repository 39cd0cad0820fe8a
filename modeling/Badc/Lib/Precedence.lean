import Mathlib.Data.List.Basic

/-!
# Operator precedence

Expressions over leaves, prefix operators, parentheses and left associative binary operators with a
level each; the lower the level, the tighter an operator binds.  A tree is grouped where no operand
needs parentheses that are not there.  A list of tokens is the print of one grouped tree at most
(`Tree.print_injective`), so that a text has one reading.
-/

namespace Badc.Precedence

/-- The tokens of an expression. -/
inductive Token (ℓ υ β : Type)
  | leaf (x : ℓ)
  | unary (u : υ)
  | binary (o : β)
  | opening
  | closing
  deriving DecidableEq

/-- An expression, with the parentheses that are written. -/
inductive Tree (ℓ υ β : Type)
  | leaf (x : ℓ)
  | unary (u : υ) (e : Tree ℓ υ β)
  | paren (e : Tree ℓ υ β)
  | binary (o : β) (l r : Tree ℓ υ β)

namespace Tree

variable {ℓ υ β : Type}

/-- The tokens an expression is written with. -/
def print : Tree ℓ υ β → List (Token ℓ υ β)
  | leaf x => [.leaf x]
  | unary u e => .unary u :: e.print
  | paren e => .opening :: (e.print ++ [.closing])
  | binary o l r => l.print ++ .binary o :: r.print

variable (level : β → ℕ)

/-- The outermost operator, if it is a binary one, is of a level below `n`. -/
def Below (n : ℕ) : Tree ℓ υ β → Prop
  | binary o _ _ => level o < n
  | _ => True

/-- Every operand binds tighter than its operator; a left operand may bind the same. -/
def Grouped : Tree ℓ υ β → Prop
  | leaf _ => True
  | unary _ e => e.Grouped ∧ e.Below level 0
  | paren e => e.Grouped
  | binary o l r => (l.Grouped ∧ l.Below level (level o + 1)) ∧ r.Grouped ∧ r.Below level (level o)

/-- An expression as its first operand and the binary operators that follow, with an operand each. -/
def chain : Tree ℓ υ β → Tree ℓ υ β × List (β × Tree ℓ υ β)
  | binary o l r => (l.chain.1, l.chain.2 ++ (o, r.chain.1) :: r.chain.2)
  | e => (e, [])

/-- Write an operator and an operand behind an expression: it goes where the level says. -/
def graft (o : β) (x : Tree ℓ υ β) : Tree ℓ υ β → Tree ℓ υ β
  | binary o' l r => if level o < level o' then binary o' l (graft o x r) else binary o (binary o' l r) x
  | e => binary o e x

/-- Write operators and operands one after the other behind an expression. -/
def graftAll (e : Tree ℓ υ β) (rest : List (β × Tree ℓ υ β)) : Tree ℓ υ β :=
  rest.foldl (fun e p => graft level p.1 p.2 e) e

variable {level} {e e' l r x : Tree ℓ υ β} {o : β} {n m : ℕ}

lemma Below.mono (h : e.Below level n) (hnm : n ≤ m) : e.Below level m := by
  cases e with
  | binary o l r => exact Nat.lt_of_lt_of_le h hnm
  | _ => trivial

lemma graft_of_below (h : e.Below level (level o + 1)) : graft level o x e = binary o e x := by
  cases e with
  | binary o' l r => rw [graft, if_neg (by simp only [Below] at h; omega)]
  | _ => rfl

lemma graftAll_binary {rest : List (β × Tree ℓ υ β)} (h : ∀ p ∈ rest, level p.1 < level o) :
    graftAll level (binary o l r) rest = binary o l (graftAll level r rest) := by
  induction rest generalizing r with
  | nil => rfl
  | cons p rest ih =>
    have hhead : graft level p.1 p.2 (binary o l r) = binary o l (graft level p.1 p.2 r) := by
      rw [graft, if_pos (h p (.head _))]
    exact (congrArg (fun e => graftAll level e rest) hhead).trans
      (ih fun q hq => h q (.tail _ hq))

/-- The operators of a grouped expression are of levels no higher than that of the outermost one. -/
lemma level_lt_of_mem_chain (h : e.Grouped level) (hbelow : e.Below level n) :
    ∀ p ∈ e.chain.2, level p.1 < n := by
  induction e generalizing n with
  | binary o l r ihl ihr =>
    obtain ⟨⟨hl, hlbelow⟩, hr, hrbelow⟩ := h
    have ho : level o < n := hbelow
    intro p hp
    rcases List.mem_append.mp hp with hp | hp
    · exact ihl hl (hlbelow.mono ho) p hp
    · rcases List.mem_cons.mp hp with rfl | hp
      · exact ho
      · exact Nat.lt_trans (ihr hr hrbelow p hp) ho
  | _ => exact fun p hp => absurd hp List.not_mem_nil

/-- **A grouped expression is determined by its operands and operators in their order.** -/
theorem graftAll_chain (h : e.Grouped level) : graftAll level e.chain.1 e.chain.2 = e := by
  induction e with
  | binary o l r ihl ihr =>
    obtain ⟨⟨hl, hlbelow⟩, hr, hrbelow⟩ := h
    have htighter := level_lt_of_mem_chain hr hrbelow
    calc graftAll level l.chain.1 (l.chain.2 ++ (o, r.chain.1) :: r.chain.2)
        = graftAll level (graft level o r.chain.1 (graftAll level l.chain.1 l.chain.2)) r.chain.2 := by
          rw [graftAll, List.foldl_append]
          rfl
      _ = graftAll level (binary o l r.chain.1) r.chain.2 := by
          rw [ihl hl, graft_of_below hlbelow]
      _ = binary o l r := by
          rw [graftAll_binary htighter, ihr hr]
  | _ => rfl

/-- The operands of an expression. -/
def operands (e : Tree ℓ υ β) : List (Tree ℓ υ β) := e.chain.1 :: e.chain.2.map Prod.snd

lemma operands_binary : (binary o l r).operands = l.operands ++ r.operands := by
  simp [operands, chain]

/-- The operands of a grouped expression are grouped and no binary expressions. -/
lemma grouped_of_mem_operands (h : e.Grouped level) : ∀ x ∈ e.operands, x.Grouped level ∧ x.Below level 0 := by
  induction e with
  | binary o l r ihl ihr =>
    intro x hx
    rw [operands_binary] at hx
    rcases List.mem_append.mp hx with hx | hx
    · exact ihl h.1.1 x hx
    · exact ihr h.2.1 x hx
  | _ =>
    intro x hx
    obtain rfl := List.mem_singleton.mp hx
    exact ⟨h, trivial⟩

/-- The tokens of operators and operands in their order. -/
def printRest (rest : List (β × Tree ℓ υ β)) : List (Token ℓ υ β) :=
  rest.flatMap fun p => .binary p.1 :: p.2.print

lemma print_eq_chain : e.print = e.chain.1.print ++ printRest e.chain.2 := by
  induction e with
  | binary o l r ihl ihr => simp [print, chain, ihl, ihr, printRest]
  | _ => simp [chain, printRest]

/-- An operand is read off the front of a list of tokens in one way. -/
def ReadOnce (level : β → ℕ) (x : Tree ℓ υ β) : Prop :=
  ∀ x' : Tree ℓ υ β, x'.Grouped level → x'.Below level 0 → ∀ t t',
    x.print ++ t = x'.print ++ t' → x = x' ∧ t = t'

/-- Where no binary operator follows, operators and operands are read in one way. -/
lemma printRest_injective {rest rest' : List (β × Tree ℓ υ β)} {t t' : List (Token ℓ υ β)}
    (hread : ∀ p ∈ rest, ReadOnce level p.2)
    (hrest' : ∀ p ∈ rest', p.2.Grouped level ∧ p.2.Below level 0)
    (ht : ∀ o, t.head? ≠ some (.binary o)) (ht' : ∀ o, t'.head? ≠ some (.binary o))
    (h : printRest rest ++ t = printRest rest' ++ t') : rest = rest' ∧ t = t' := by
  induction rest generalizing rest' with
  | nil =>
    cases rest' with
    | nil => exact ⟨rfl, h⟩
    | cons p' rest' => exact absurd (by rw [show t = _ from h]; rfl) (ht p'.1)
  | cons p rest ih =>
    cases rest' with
    | nil => exact absurd (by rw [show t' = _ from h.symm]; rfl) (ht' p.1)
    | cons p' rest' =>
      simp only [printRest, List.flatMap_cons, List.cons_append, List.append_assoc, List.cons.injEq,
        Token.binary.injEq] at h
      obtain ⟨hop, h⟩ := h
      obtain ⟨hgrouped, hbelow⟩ := hrest' p' (.head _)
      obtain ⟨hx, h⟩ := hread p (.head _) p'.2 hgrouped hbelow _ _ h
      obtain ⟨rfl, rfl⟩ := ih (fun q hq => hread q (.tail _ hq))
        (fun q hq => hrest' q (.tail _ hq)) h
      exact ⟨by rw [Prod.ext hop hx], rfl⟩

/-- Where no binary operator follows, a grouped expression is read in one way. -/
lemma print_append_injective (h : e.Grouped level) (hread : ∀ x ∈ e.operands, ReadOnce level x)
    (h' : e'.Grouped level) (t t' : List (Token ℓ υ β)) (ht : ∀ o, t.head? ≠ some (.binary o))
    (ht' : ∀ o, t'.head? ≠ some (.binary o)) (heq : e.print ++ t = e'.print ++ t') : e = e' ∧ t = t' := by
  have hoperands' := grouped_of_mem_operands h'
  obtain ⟨hgrouped, hbelow⟩ := hoperands' _ (.head _)
  rw [print_eq_chain, print_eq_chain (e := e'), List.append_assoc, List.append_assoc] at heq
  obtain ⟨hfirst, heq⟩ := hread _ (.head _) _ hgrouped hbelow _ _ heq
  obtain ⟨hrest, htail⟩ := printRest_injective
    (fun p hp => hread _ (List.mem_cons_of_mem _ (List.mem_map_of_mem hp)))
    (fun p hp => hoperands' _ (List.mem_cons_of_mem _ (List.mem_map_of_mem hp))) ht ht' heq
  refine ⟨?_, htail⟩
  rw [← graftAll_chain h, ← graftAll_chain h', hfirst, hrest]

/-- Every operand of a grouped expression is read in one way. -/
lemma readOnce_of_mem_operands (h : e.Grouped level) : ∀ x ∈ e.operands, ReadOnce level x := by
  induction e with
  | leaf y =>
    intro x hx
    obtain rfl : x = leaf y := List.mem_singleton.mp hx
    intro x' _ hbelow t t' heq
    cases x' with
    | leaf y' =>
      simp only [print, List.cons_append, List.nil_append, List.cons.injEq, Token.leaf.injEq] at heq
      exact ⟨by rw [heq.1], heq.2⟩
    | binary o l r => exact absurd hbelow (Nat.not_lt_zero _)
    | _ => simp [print] at heq
  | unary u e ih =>
    intro x hx
    obtain rfl : x = unary u e := List.mem_singleton.mp hx
    intro x' hgrouped' hbelow t t' heq
    cases x' with
    | unary u' e' =>
      simp only [print, List.cons_append, List.cons.injEq, Token.unary.injEq] at heq
      have hself : e ∈ e.operands := by
        obtain ⟨_, hoperand⟩ := h
        cases e with
        | binary o l r => exact absurd hoperand (Nat.not_lt_zero _)
        | _ => exact .head _
      obtain ⟨hsame, htail⟩ := ih h.1 e hself e' hgrouped'.1 hgrouped'.2 _ _ heq.2
      exact ⟨by rw [heq.1, hsame], htail⟩
    | binary o l r => exact absurd hbelow (Nat.not_lt_zero _)
    | _ => simp [print] at heq
  | paren e ih =>
    intro x hx
    obtain rfl : x = paren e := List.mem_singleton.mp hx
    intro x' hgrouped' hbelow t t' heq
    cases x' with
    | paren e' =>
      simp only [print, List.cons_append, List.append_assoc, List.cons.injEq, true_and] at heq
      have he : e.Grouped level := h
      have he' : e'.Grouped level := hgrouped'
      obtain ⟨hsame, htail⟩ := print_append_injective he (ih he) he' (.closing :: t)
        (.closing :: t') (by simp) (by simp) heq
      exact ⟨by rw [hsame], (List.cons.inj htail).2⟩
    | binary o l r => exact absurd hbelow (Nat.not_lt_zero _)
    | _ => simp [print] at heq
  | binary o l r ihl ihr =>
    intro x hx
    rw [operands_binary] at hx
    rcases List.mem_append.mp hx with hx | hx
    · exact ihl h.1.1 x hx
    · exact ihr h.2.1 x hx

/-- **A list of tokens is the print of one grouped expression at most.** -/
theorem print_injective (h : e.Grouped level) (h' : e'.Grouped level) (heq : e.print = e'.print) :
    e = e' :=
  (print_append_injective h (readOnce_of_mem_operands h) h' [] [] (by simp) (by simp)
    (by rw [heq])).1

end Tree

end Badc.Precedence
