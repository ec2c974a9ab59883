import QueryTree.Text.Basic

/-!
# Unique identifiers

Identifiers of 128 bits, written as 32 hexadecimal digits in five groups.
-/

namespace QueryTree

/-- A unique identifier of 128 bits. -/
structure Guid where
  bits : BitVec 128
deriving DecidableEq, Repr

namespace Guid

/-- How many digits each group has. -/
def groups : List Nat := [8, 4, 4, 4, 12]

/-- Cuts a text into pieces of these lengths. -/
def cut : List Nat → List Char → List (List Char)
  | [], _ => []
  | n :: ns, cs => cs.take n :: cut ns (cs.drop n)

/-- The text of `g`: lower case, groups joined by hyphens. -/
def text (g : Guid) : String :=
  Text.joinWith "-" ((cut groups (Text.hexDigits 32 g.bits.toNat)).map String.ofList)

/-- Reads 32 hexadecimal digits. -/
def ofDigits? (cs : List Char) : Option Guid := do
  let n ← Text.hexadecimal? cs
  if cs.length == 32 then some ⟨BitVec.ofNat 128 n⟩ else none

/-- Reads the five groups with their hyphens. -/
def ofGroups? (cs : List Char) : Option Guid :=
  let digits := cs.filter (· != '-')
  if cs.length == 36 && [8, 13, 18, 23].all (fun i => cs[i]? == some '-') then ofDigits? digits
  else none

/-- Reads plain digits, groups, groups in braces, or groups after `urn:uuid:`, in upper and lower
case. -/
def ofText? (s : String) : Option Guid :=
  let cs := s.toList
  if cs.length == 32 then ofDigits? cs
  else if cs.length == 38 && cs.head? == some '\x7b' && cs.getLast? == some '\x7d' then
    ofGroups? cs.tail.dropLast
  else if (cs.take 9).map Char.toLower == "urn:uuid:".toList then ofGroups? (cs.drop 9)
  else ofGroups? cs

end Guid

end QueryTree
