import TreeWalk.Machine.Operator

namespace TreeWalk

inductive Value.Like : Value → Value → Prop
  | scalar {s : Scalar} : Like (.scalar s) (.scalar s)
  | native {index : Nat} : Like (.native index) (.native index)
  | function {identity : Nat} {c c' : Closure} :
      c'.decl.name.lexeme = c.decl.name.lexeme → Like (.function identity c) (.function identity c')
  | cls {identity : Nat} {info info' : ClassInfo} :
      info'.name = info.name → Like (.cls identity info) (.cls identity info')
  | object {identity : Nat} {info info' : ClassInfo} :
      info'.name = info.name → Like (.object identity info) (.object identity info')
  | completion {v v' : Value} : Like v v' → Like (.completion v) (.completion v')

section Operations

variable {v v' u u' : Value}

theorem Operator.unary_congr (hnumber : v'.number? = v.number?) (htruthy : v'.isTruthy = v.isTruthy)
    (operator : Token) : unary operator v' = unary operator v := by
  unfold unary number
  rw [hnumber, htruthy]

theorem Operator.binary_congr (hnumber : v'.number? = v.number?) (hstring : v'.string? = v.string?)
    (hnumber' : u'.number? = u.number?) (hstring' : u'.string? = u.string?)
    (hequals : v'.equals u' = v.equals u) (operator : Token) :
    binary operator v' u' = binary operator v u := by
  unfold binary add numbers
  rw [hnumber, hstring, hnumber', hstring', hequals]

theorem ClassInfo.arity_congr {S : Closure → Closure → Prop} {c c' : ClassInfo}
    (hS : ∀ d d', S d d' → d'.arity = d.arity) (h : Option.Rel S c.initializer? c'.initializer?) :
    c'.arity = c.arity := by
  unfold arity
  generalize c.initializer? = d at h ⊢
  generalize c'.initializer? = d' at h ⊢
  cases h with
  | none => rfl
  | some h => exact hS _ _ h

end Operations

namespace Value.Like

variable {v v' u u' : Value}

theorem describe_eq (h : v.Like v') : v'.describe = v.describe := by
  induction h with
  | scalar | native => rfl
  | function hname => exact congrArg ("<fn " ++ · ++ ">") hname
  | cls hname => exact hname
  | object hname => exact congrArg (· ++ " instance") hname
  | completion _ ih => exact congrArg ("ReturnValue(value=" ++ · ++ ")") ih

theorem text_eq (h : v.Like v') : v'.text = v.text := by
  cases h with
  | scalar => rfl
  | native => rfl
  | function hname => exact describe_eq (.function hname)
  | cls hname => exact describe_eq (.cls hname)
  | object hname => exact describe_eq (.object hname)
  | completion h => exact describe_eq (.completion h)

theorem isTruthy_eq (h : v.Like v') : v'.isTruthy = v.isTruthy := by
  cases h <;> rfl

theorem number?_eq (h : v.Like v') : v'.number? = v.number? := by
  cases h <;> rfl

theorem string?_eq (h : v.Like v') : v'.string? = v.string? := by
  cases h <;> rfl

theorem same_eq (hv : v.Like v') (hu : u.Like u') : v'.same u' = v.same u := by
  induction hv generalizing u u' with
  | completion _ ih =>
    cases hu with
    | completion hu => exact ih hu
    | _ => rfl
  | _ => cases hu <;> rfl

theorem equals_eq (hv : v.Like v') (hu : u.Like u') : v'.equals u' = v.equals u := by
  have hsame := same_eq hv hu
  cases hv <;> cases hu <;> first | rfl | exact hsame

theorem unary_eq (hv : v.Like v') (operator : Token) :
    Operator.unary operator v' = Operator.unary operator v :=
  Operator.unary_congr hv.number?_eq hv.isTruthy_eq operator

theorem binary_eq (hv : v.Like v') (hu : u.Like u') (operator : Token) :
    Operator.binary operator v' u' = Operator.binary operator v u :=
  Operator.binary_congr hv.number?_eq hv.string?_eq hu.number?_eq hu.string?_eq (hv.equals_eq hu)
    operator

end Value.Like

end TreeWalk
