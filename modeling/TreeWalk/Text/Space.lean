namespace TreeWalk.Text

def wideSpaces : List (Nat × Nat) :=
  [(0x85, 0x85), (0xa0, 0xa0), (0x1680, 0x1680), (0x2000, 0x200a), (0x2028, 0x2029),
   (0x202f, 0x202f), (0x205f, 0x205f), (0x3000, 0x3000)]

/-- White space that may stand around a number: without the four ASCII separators. -/
def isNumberSpace (c : Char) : Bool :=
  (9 ≤ c.toNat && c.toNat ≤ 13) || c = ' ' ||
    wideSpaces.any fun r ↦ r.1 ≤ c.toNat && c.toNat ≤ r.2

def isSpace (c : Char) : Bool :=
  isNumberSpace c || (0x1c ≤ c.toNat && c.toNat ≤ 0x1f)

def trim (drop : Char → Bool) (cs : List Char) : List Char :=
  ((cs.dropWhile drop).reverse.dropWhile drop).reverse

end TreeWalk.Text
