import TreeWalk.Proofs.Grammar.OfWords
import TreeWalk.Proofs.Session.History
import TreeWalk.Proofs.Tree.Told

namespace TreeWalk.Session

open Scan

def FiniteNumbers (source : String) : Prop :=
  ∀ t ∈ (ofText source).words, ∀ x, t.literal = .number x → x.isFinite = true

theorem statements_ofWords (limits : Limits) {source : String} (h : FiniteNumbers source) :
    ∀ s ∈ (programOf limits source).statements, s.OfWords Token.Spelled :=
  Program.statements_ofWords _ (spelled_of_word h) _

/-- The printed text of a program tells its statements, also those of a source in which faults are found. -/
theorem printed_alike {limits limits' : Limits} {source source' text : String} {room room' : Nat}
    (hfinite : FiniteNumbers source) (hfinite' : FiniteNumbers source')
    (h : Printer.program room (programOf limits source).statements = .ok text)
    (h' : Printer.program room' (programOf limits' source').statements = .ok text) :
    List.Forall₂ (Stmt.Alike Token.Like) (programOf limits source).statements
      (programOf limits' source').statements := by
  have hwords := statements_ofWords limits hfinite
  have hwords' := statements_ofWords limits' hfinite'
  have htext := (Printer.program_text hwords h).symm.trans (Printer.program_text hwords' h')
  have hforms := Form.lines_unique (List.forall_mem_map.mpr fun s hs ↦ (hwords s hs).clear)
    (List.forall_mem_map.mpr fun s hs ↦ (hwords' s hs).clear) htext
  exact forall₂_of_map_eq hforms fun s hs s' hs' ↦ (hwords s hs).alike (hwords' s' hs')

def one : Float := Decimal.ofDigits ['1'] []

theorem one_finite : one.isFinite = true := by decide +kernel

theorem one_text : Scalar.numberLayout.text one = "1" := by decide +kernel

theorem ofText_whole : ofText "print 1;" =
    ⟨[⟨.printWord, "print", .nil, 1⟩, ⟨.number, "1", .number one, 1⟩, ⟨.semicolon, ";", .nil, 1⟩],
      endMarker 1, []⟩ := by
  with_unfolding_all rfl

theorem ofText_decimal : ofText "print\n1.0; )" =
    ⟨[⟨.printWord, "print", .nil, 1⟩, ⟨.number, "1.0", .number (Decimal.ofDigits ['1'] ['0']), 2⟩,
      ⟨.semicolon, ";", .nil, 2⟩, ⟨.rightParen, ")", .nil, 2⟩], endMarker 2, []⟩ := by
  with_unfolding_all rfl

theorem decimal_one : Decimal.ofDigits ['1'] ['0'] = one := by decide +kernel

theorem finite_whole : FiniteNumbers "print 1;" := by
  intro t ht x hx
  rw [ofText_whole] at ht
  simp only [List.mem_cons, List.not_mem_nil, or_false] at ht
  obtain rfl | rfl | rfl := ht <;> cases hx
  exact one_finite

theorem finite_decimal : FiniteNumbers "print\n1.0; )" := by
  intro t ht x hx
  rw [ofText_decimal, decimal_one] at ht
  simp only [List.mem_cons, List.not_mem_nil, or_false] at ht
  obtain rfl | rfl | rfl | rfl := ht <;> cases hx
  exact one_finite

theorem programOf_whole :
    programOf smallSetup.limits "print 1;" = ⟨[.print (.literal (.number one))], []⟩ := by
  rw [programOf, ofText_whole]
  rfl

theorem statements_decimal :
    (programOf smallSetup.limits "print\n1.0; )").statements = [.print (.literal (.number one))] ∧
      (programOf smallSetup.limits "print\n1.0; )").faults ≠ [] := by
  rw [programOf, ofText_decimal, decimal_one]
  exact ⟨rfl, by decide⟩

theorem print_one : Printer.program 30 [.print (.literal (.number one))] = .ok "(print 1)" := by
  have h : Printer.program 30 [.print (.literal (.number one))] =
      .ok s!"(print {Scalar.numberLayout.text one})" := rfl
  rw [h, one_text]
  rfl

/-- One text for `print 1;` and for the same on other lines, with a fault behind it. -/
theorem printed_one :
    Printer.program 30 (programOf smallSetup.limits "print 1;").statements = .ok "(print 1)" ∧
      Printer.program 30 (programOf smallSetup.limits "print\n1.0; )").statements = .ok "(print 1)" ∧
      List.Forall₂ (Stmt.Alike Token.Like) (programOf smallSetup.limits "print 1;").statements
        (programOf smallSetup.limits "print\n1.0; )").statements := by
  have h : Printer.program 30 (programOf smallSetup.limits "print 1;").statements = .ok "(print 1)" := by
    rw [programOf_whole]
    exact print_one
  have h' : Printer.program 30 (programOf smallSetup.limits "print\n1.0; )").statements = .ok "(print 1)" := by
    rw [statements_decimal.1]
    exact print_one
  exact ⟨h, h', printed_alike finite_whole finite_decimal h h'⟩

end TreeWalk.Session
