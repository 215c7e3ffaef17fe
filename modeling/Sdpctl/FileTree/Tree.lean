import Mathlib.Data.List.Basic
import Mathlib.Tactic.Common

/-!
File trees: a file with its bytes, or a directory with named entries. Every
node carries the identity that a rename keeps (its inode number). Paths are
relative to the root of the tree.
-/

namespace FileTree

abbrev Path := List String

/-- Whether a path is in a list is decided by `==`. -/
instance : LawfulBEq Path := inferInstanceAs (LawfulBEq (List String))

inductive Tree where
  | file (ino : Nat) (content : List UInt8)
  | dir (ino : Nat) (entries : List (String × Tree))

/-- The entries of a directory with the one called `name` replaced or removed. -/
def setEntry (entries : List (String × Tree)) (name : String) (x : Option Tree) :
    List (String × Tree) :=
  entries.filter (fun e => e.1 != name) ++ (x.map fun t => (name, t)).toList

namespace Tree

def ino : Tree → Nat
  | .file i _ => i
  | .dir i _ => i

def isDir : Tree → Bool
  | .file _ _ => false
  | .dir _ _ => true

def get? : Tree → Path → Option Tree
  | t, [] => some t
  | .file _ _, _ :: _ => none
  | .dir _ es, n :: p =>
      match es.lookup n with
      | some c => c.get? p
      | none => none

/-- Replace or remove what a path names; nothing happens below a missing
directory. -/
def set : Tree → Path → Option Tree → Tree
  | t, [], x => x.getD t
  | .file i c, _ :: _, _ => .file i c
  | .dir i es, [n], x => .dir i (setEntry es n x)
  | .dir i es, n :: m :: p, x =>
      match es.lookup n with
      | some c => .dir i (setEntry es n (some (c.set (m :: p) x)))
      | none => .dir i es

mutual
def bytes : Tree → Nat
  | .file _ c => c.length
  | .dir _ es => bytesOf es
/-- The bytes of all files below the given entries. -/
def bytesOf : List (String × Tree) → Nat
  | [] => 0
  | e :: es => e.2.bytes + bytesOf es
end

mutual
/-- The paths of everything below a directory. -/
def rglob : Tree → List Path
  | .file _ _ => []
  | .dir _ es => rglobOf es
/-- The paths of the given entries and of everything below them. -/
def rglobOf : List (String × Tree) → List Path
  | [] => []
  | e :: es => [e.1] :: e.2.rglob.map (e.1 :: ·) ++ rglobOf es
end

mutual
/-- Names are unique in every directory of the tree. -/
def wf : Tree → Bool
  | .file _ _ => true
  | .dir _ es => wfOf es
/-- Names are unique in the entries and in every directory below them. -/
def wfOf : List (String × Tree) → Bool
  | [] => true
  | e :: es => e.2.wf && !(es.map (·.1)).contains e.1 && wfOf es
end

mutual
/-- The first tree is what a removal that stopped part-way left of the second. -/
def prunedFrom : Tree → Tree → Bool
  | .file i c, .file j d => i == j && c == d
  | .dir i es, .dir j fs => i == j && prunedOf es fs
  | _, _ => false
/-- Every entry of the first list is left of an entry of the second. -/
def prunedOf : List (String × Tree) → List (String × Tree) → Bool
  | [], _ => true
  | e :: es, fs =>
      (match fs.lookup e.1 with
        | some t => e.2.prunedFrom t
        | none => false) && prunedOf es fs
end

/-- The directory at a path, with the missing directories above it. -/
def chain : Path → Tree
  | [] => .dir 0 []
  | n :: p => .dir 0 [(n, chain p)]

/-- `mkdir(parents=True, exist_ok=True)`; `none` when a file is in the way. -/
def mkdirs : Tree → Path → Option Tree
  | .dir i es, [] => some (.dir i es)
  | .file _ _, _ => none
  | .dir i es, n :: p =>
      match es.lookup n with
      | some c =>
        match c.mkdirs p with
        | some c' => some (.dir i (setEntry es n (some c')))
        | none => none
      | none => some (.dir i (setEntry es n (some (chain p))))

/-- The size of a file; what a directory reports does not count. -/
def statSize : Tree → Nat
  | .file _ c => c.length
  | .dir _ _ => 0

def IsDir (t : Tree) (p : Path) : Prop := ∃ i es, t.get? p = some (.dir i es)

/-- The bytes below a path, zero when it names nothing. -/
def bytesAt (t : Tree) (p : Path) : Nat := ((t.get? p).map bytes).getD 0

end Tree

@[simp] theorem lookup_setEntry_self (es : List (String × Tree)) (n : String) (x : Option Tree) :
    (setEntry es n x).lookup n = x := by
  have hnone : (es.filter fun e => e.1 != n).lookup n = none := by
    rw [List.lookup_eq_none_iff]
    intro e he
    have hne : e.1 ≠ n := by simpa using (List.mem_filter.mp he).2
    simpa using fun h => hne h.symm
  unfold setEntry
  rw [List.lookup_append, hnone]
  cases x <;> simp

theorem lookup_setEntry_ne (es : List (String × Tree)) {n m : String} (x : Option Tree)
    (h : m ≠ n) : (setEntry es n x).lookup m = es.lookup m := by
  have hfilter : (es.filter fun e => e.1 != n).lookup m = es.lookup m := by
    induction es with
    | nil => rfl
    | cons e rest ih =>
      obtain ⟨k, t⟩ := e
      by_cases hk : k = n
      · have hmk : (m == k) = false := by simpa [hk] using h
        simpa [hk, List.lookup_cons, hk ▸ hmk] using ih
      · simp only [List.filter_cons, bne_iff_ne, ne_eq, hk, not_false_eq_true, ite_true,
          List.lookup_cons, ih]
  unfold setEntry
  rw [List.lookup_append, hfilter]
  cases x with
  | none => simp
  | some t =>
    have hmn : (m == n) = false := by simpa using h
    simp [List.lookup_cons, hmn]

theorem setEntry_setEntry (es : List (String × Tree)) (n : String) (x y : Option Tree) :
    setEntry (setEntry es n x) n y = setEntry es n y := by
  unfold setEntry
  rw [List.filter_append, List.filter_filter]
  cases x <;> simp

namespace Tree

@[simp] theorem get?_nil (t : Tree) : t.get? [] = some t := by
  cases t <;> rfl

@[simp] theorem get?_file (i : Nat) (c : List UInt8) (n : String) (p : Path) :
    (Tree.file i c).get? (n :: p) = none := rfl

theorem get?_dir (i : Nat) (es : List (String × Tree)) (n : String) (p : Path) :
    (Tree.dir i es).get? (n :: p) = (es.lookup n).bind (·.get? p) := by
  simp only [get?]
  cases es.lookup n <;> rfl

theorem get?_append (t : Tree) (p q : Path) :
    t.get? (p ++ q) = (t.get? p).bind (·.get? q) := by
  induction p generalizing t with
  | nil => simp
  | cons n p ih =>
    cases t with
    | file i c => rfl
    | dir i es =>
      simp only [List.cons_append, get?_dir]
      cases es.lookup n with
      | none => rfl
      | some c => exact ih c

theorem get?_set_below {t u : Tree} {q : Path} {n : String} {r : Path} {x : Option Tree}
    (h : t.get? q = some u) : (t.set (q ++ n :: r) x).get? q = some (u.set (n :: r) x) := by
  induction q generalizing t with
  | nil =>
    simp only [get?_nil, Option.some.injEq] at h
    rw [h, List.nil_append, get?_nil]
  | cons m q ih =>
    cases t with
    | file i c => simp at h
    | dir i es =>
      rw [get?_dir] at h
      cases hm : es.lookup m with
      | none => simp [hm] at h
      | some c =>
        rw [hm, Option.bind_some] at h
        have hrec := ih h
        cases hp : q ++ n :: r with
        | nil => simp at hp
        | cons k p =>
          rw [hp] at hrec
          simp only [List.cons_append, hp, set, hm, get?_dir, lookup_setEntry_self,
            Option.bind_some]
          exact hrec

/-- Replacing what a path names does what it says when the parent is a directory. -/
theorem get?_set_self {t : Tree} {p : Path} {n : String} {x : Option Tree}
    (h : t.IsDir p) : (t.set (p ++ [n]) x).get? (p ++ [n]) = x := by
  obtain ⟨i, es, h⟩ := h
  rw [get?_append, get?_set_below h, Option.bind_some]
  simp only [set, get?_dir, lookup_setEntry_self]
  cases x <;> simp

end Tree

/-- The paths part at some component: neither is a prefix of the other. -/
def Apart : Path → Path → Prop
  | n :: p, m :: q => n ≠ m ∨ Apart p q
  | _, _ => False

@[simp] theorem apart_nil_left (q : Path) : ¬ Apart [] q := by
  cases q <;> exact id

@[simp] theorem apart_nil_right (p : Path) : ¬ Apart p [] := by
  cases p <;> exact id

@[simp] theorem apart_cons (n m : String) (p q : Path) :
    Apart (n :: p) (m :: q) ↔ n ≠ m ∨ Apart p q := Iff.rfl

theorem Apart.symm {p q : Path} (h : Apart p q) : Apart q p := by
  induction p generalizing q with
  | nil => cases q <;> exact h
  | cons n p ih =>
    cases q with
    | nil => exact h
    | cons m q =>
      rcases h with hne | h
      · exact .inl (Ne.symm hne)
      · exact .inr (ih h)

theorem path_cases (p q : Path) :
    (∃ r, p = q ++ r) ∨ (∃ n r, q = p ++ n :: r) ∨ Apart p q := by
  induction p generalizing q with
  | nil =>
    cases q with
    | nil => exact .inl ⟨[], rfl⟩
    | cons n r => exact .inr (.inl ⟨n, r, rfl⟩)
  | cons m p ih =>
    cases q with
    | nil => exact .inl ⟨m :: p, rfl⟩
    | cons n q =>
      by_cases hmn : m = n
      · subst hmn
        rcases ih q with ⟨r, rfl⟩ | ⟨k, r, rfl⟩ | hapart
        · exact .inl ⟨r, rfl⟩
        · exact .inr (.inl ⟨k, r, rfl⟩)
        · exact .inr (.inr (.inr hapart))
      · exact .inr (.inr (.inl hmn))

theorem Apart.append {p q : Path} (h : Apart p q) (r : Path) : Apart p (q ++ r) := by
  induction p generalizing q with
  | nil => exact (apart_nil_left q h).elim
  | cons m p ih =>
    cases q with
    | nil => exact (apart_nil_right _ h).elim
    | cons n q =>
      rcases h with hne | h
      · exact .inl hne
      · exact .inr (ih h)

theorem Apart.not_prefix {p q : Path} (h : Apart p q) : p.isPrefixOf q = false := by
  induction p generalizing q with
  | nil => cases q <;> exact h.elim
  | cons n p ih =>
    cases q with
    | nil => rfl
    | cons m q =>
      rcases h with hne | h
      · simp [List.isPrefixOf, hne]
      · simp [List.isPrefixOf, ih h]

theorem Apart.irrefl (p : Path) : ¬ Apart p p := by
  induction p with
  | nil => exact apart_nil_left []
  | cons n p ih => simp [ih]

namespace Tree

theorem get?_set_apart (t : Tree) {p q : Path} (x : Option Tree) (h : Apart q p) :
    (t.set p x).get? q = t.get? q := by
  induction p generalizing t q with
  | nil => cases q <;> exact h.elim
  | cons m p ih =>
    cases q with
    | nil => exact h.elim
    | cons n q =>
      cases t with
      | file i c => rfl
      | dir i es =>
        by_cases hnm : n = m
        · subst hnm
          rcases h with hne | h
          · exact absurd rfl hne
          cases p with
          | nil => cases q <;> exact h.elim
          | cons k p =>
            cases hn : es.lookup n with
            | none => simp [set, hn]
            | some c =>
              simp only [set, hn, get?_dir, lookup_setEntry_self, Option.bind_some]
              exact ih c h
        · cases p with
          | nil => simp only [set, get?_dir, lookup_setEntry_ne _ _ hnm]
          | cons k p =>
            cases hm : es.lookup m with
            | none => simp [set, hm]
            | some c => simp only [set, hm, get?_dir, lookup_setEntry_ne _ _ hnm]

theorem set_set (t : Tree) {p : Path} (hp : p ≠ []) (x y : Option Tree) :
    (t.set p x).set p y = t.set p y := by
  induction p generalizing t with
  | nil => exact absurd rfl hp
  | cons n p ih =>
    cases t with
    | file i c => rfl
    | dir i es =>
      cases p with
      | nil => simp only [set, setEntry_setEntry]
      | cons m p =>
        cases hn : es.lookup n with
        | none => simp only [set, hn]
        | some c =>
          simp only [set, hn, lookup_setEntry_self, setEntry_setEntry]
          rw [ih c (by simp)]

theorem isDir_of_get? {t c : Tree} {p : Path} {n : String} (h : t.get? (p ++ [n]) = some c) :
    t.IsDir p := by
  rw [get?_append] at h
  cases hp : t.get? p with
  | none => simp [hp] at h
  | some u =>
    cases u with
    | file i b => simp [hp] at h
    | dir i es => exact ⟨i, es, hp⟩

theorem isDir_set_below {t : Tree} (h : t.isDir) (n : String) (r : Path) (x : Option Tree) :
    (t.set (n :: r) x).isDir := by
  cases t with
  | file i c => cases h
  | dir i es =>
    cases r with
    | nil => rfl
    | cons m r => cases hn : es.lookup n <;> simp [set, hn, isDir]

theorem IsDir.set_below {t : Tree} {q : Path} {n : String} {r : Path} {x : Option Tree}
    (h : t.IsDir q) : (t.set (q ++ n :: r) x).IsDir q := by
  obtain ⟨i, es, h⟩ := h
  have hdir := isDir_set_below (t := .dir i es) rfl n r x
  unfold IsDir
  rw [get?_set_below h]
  cases hset : (Tree.dir i es).set (n :: r) x with
  | file j c =>
    rw [hset] at hdir
    cases hdir
  | dir j fs => exact ⟨j, fs, rfl⟩

theorem IsDir.set_apart {t : Tree} {p q : Path} {x : Option Tree} (h : t.IsDir q)
    (hapart : Apart q p) : (t.set p x).IsDir q := by
  obtain ⟨i, es, h⟩ := h
  exact ⟨i, es, by rw [get?_set_apart t x hapart, h]⟩

theorem get?_set_entry {t : Tree} {p : Path} {n : String} {x : Option Tree} {i : Nat}
    {es : List (String × Tree)} (h : t.get? p = some (.dir i es)) :
    (t.set (p ++ [n]) x).get? p = some (.dir i (setEntry es n x)) := by
  rw [get?_set_below h, set]

/-- Something that exists and is removed is gone, and everything below it. -/
theorem get?_set_none_below {t u : Tree} {p : Path} (h : t.get? p = some u)
    (hp : p ≠ []) (r : Path) :
    (t.set p none).get? (p ++ r) = none := by
  obtain ⟨dir, n, rfl⟩ : ∃ dir n, p = dir ++ [n] :=
    ⟨p.dropLast, p.getLast hp, (List.dropLast_append_getLast hp).symm⟩
  rw [get?_append, get?_set_self (isDir_of_get? h)]
  rfl

end Tree
end FileTree
