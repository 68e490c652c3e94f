/-!
# Uri/Compatibility — characters that are separators in disguise

Two texts may name the same machine when their compatibility forms agree (Unicode 14).  A character
whose form holds a separator of URIs is therefore not safe inside an authority.  No character
composes with a separator, so what a text turns into can be said character by character.
-/

namespace StagedDiagnostics.Compatibility

/-- The code points above ASCII whose compatibility form holds one of `/ ? # @ :`, in ascending
order. -/
def disguises : List Nat := [
    0x2047, 0x2048, 0x2049, 0x2100, 0x2101, 0x2105, 0x2106, 0x2A74, 0xFE13, 0xFE16, 0xFE55, 0xFE56,
    0xFE5F, 0xFE6B, 0xFF03, 0xFF0F, 0xFF1A, 0xFF1F, 0xFF20
  ]

/-- A character that turns into something with a separator in it. -/
def hidesSeparator (c : Char) : Bool := disguises.contains c.toNat

/-- An ASCII character is its own form and hides nothing. -/
theorem hidesSeparator_of_lt {c : Char} (h : c.toNat < 0x80) : hidesSeparator c = false := by
  simp only [hidesSeparator, disguises, List.contains_eq_mem, List.mem_cons, List.not_mem_nil,
    or_false, decide_eq_false_iff_not]
  omega

end StagedDiagnostics.Compatibility
