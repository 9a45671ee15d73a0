import Mathlib

/-!
# Slash-separated keys and wildcard patterns

A key is a text cut into chunks at its slashes.  It is concrete when no chunk is
empty and no chunk holds a character that has a meaning in patterns.  A pattern is
a key some of whose chunks are wildcards: `*` stands for exactly one chunk, `**`
for any number of chunks including none, any other chunk for itself.

Two things of such pattern languages are not in this rule.  A `$*` inside a chunk, which
stands for a part of it, is taken as itself.  Chunks that start with `@`, which a store may
keep from being selected by a wildcard, have no rule of their own: `selects` says what a
pattern selects among the keys without such chunks.

Wildcards are read from the front (`matchChunks_literal`, `matchChunks_one`,
`matchChunks_many`), so a proof about a fixed pattern rewrites chunk by chunk.
-/

namespace KeyExpr

abbrev Chunk := List Char

def chunks (key : String) : List Chunk := key.toList.splitOn '/'

/-- The characters with a meaning in patterns. -/
def reserved : List Char := ['*', '$', '#', '?']

def IsConcreteChunk (chunk : Chunk) : Prop := chunk ≠ [] ∧ ∀ c ∈ chunk, c ∉ reserved

/-- A canonical key without wildcards. -/
def IsConcrete (key : String) : Prop := ∀ chunk ∈ chunks key, IsConcreteChunk chunk

def matchChunks : List Chunk → List Chunk → Bool
  | [], key => key.isEmpty
  | chunk :: pattern, key =>
      if chunk = ['*', '*'] then key.tails.any (matchChunks pattern)
      else
        match key with
        | [] => false
        | first :: rest => (chunk = ['*'] || chunk = first) && matchChunks pattern rest

/-- Whether the pattern selects the key, no chunk of which starts with `@`. -/
def selects (pattern key : String) : Bool := matchChunks (chunks pattern) (chunks key)

/-! ### Chunks of a composed key -/

theorem chunks_append_slash (left right : String) :
    chunks (left ++ "/" ++ right) = chunks left ++ chunks right := by
  have hslash : ("/" : String).toList = ['/'] := rfl
  rw [chunks, String.toList_append, String.toList_append, hslash, List.append_assoc,
    List.singleton_append, List.splitOn_append_cons_self, chunks, chunks]

theorem chunks_of_not_mem {text : String} (h : '/' ∉ text.toList) : chunks text = [text.toList] :=
  List.splitOn_eq_singleton h

theorem isConcrete_append_slash {left right : String} :
    IsConcrete (left ++ "/" ++ right) ↔ IsConcrete left ∧ IsConcrete right := by
  rw [IsConcrete, chunks_append_slash, List.forall_mem_append]
  rfl

/-! ### Matching -/

theorem matchChunks_nil_iff {key : List Chunk} : matchChunks [] key = true ↔ key = [] :=
  List.isEmpty_iff

theorem matchChunks_literal {chunk first : Chunk} {pattern rest : List Chunk}
    (hmany : chunk ≠ ['*', '*']) (hone : chunk ≠ ['*']) :
    matchChunks (chunk :: pattern) (first :: rest) = true ↔
      chunk = first ∧ matchChunks pattern rest = true := by
  rw [matchChunks, if_neg hmany]
  simp [hone]

theorem matchChunks_one {first : Chunk} {pattern rest : List Chunk} :
    matchChunks (['*'] :: pattern) (first :: rest) = matchChunks pattern rest := by
  rw [matchChunks, if_neg (by decide)]
  simp

/-- `**` matches some chunks at the front. -/
theorem matchChunks_many {pattern key : List Chunk} :
    matchChunks (['*', '*'] :: pattern) key = true ↔
      ∃ front rest, key = front ++ rest ∧ matchChunks pattern rest = true := by
  rw [matchChunks.eq_def]
  simp only [if_true, List.any_eq_true]
  constructor
  · rintro ⟨rest, hmem, hrest⟩
    obtain ⟨front, hfront⟩ := (List.mem_tails rest key).mp hmem
    exact ⟨front, rest, hfront.symm, hrest⟩
  · rintro ⟨front, rest, hkey, hrest⟩
    exact ⟨rest, (List.mem_tails rest key).mpr ⟨front, hkey.symm⟩, hrest⟩

/-- A final `**` matches everything that is left. -/
theorem matchChunks_many_last (key : List Chunk) : matchChunks [['*', '*']] key = true :=
  matchChunks_many.mpr ⟨key, [], (List.append_nil key).symm, rfl⟩

end KeyExpr
