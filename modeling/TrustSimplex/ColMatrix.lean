import TrustSimplex.Vec

/-!
# Matrices by columns

`ColMatrix α rows cols` holds its columns, one below the other. Positions are natural numbers: a row
index past the last row goes on in the next column, and beyond the last entry a read answers zero
and a write changes nothing.
-/

namespace TrustSimplex

structure ColMatrix (α : Type) (rows cols : Nat) where
  columns : Vector (Vector α rows) cols

namespace ColMatrix

section
variable {α : Type} [Scalar α] {rows cols : Nat}

def ofFn (f : Fin rows → Fin cols → α) : ColMatrix α rows cols :=
  ⟨Vector.ofFn fun j => Vector.ofFn fun i => f i j⟩

def identity (n : Nat) (s : α) : ColMatrix α n n :=
  ofFn fun i j => if i = j then s else 0

/-! ## Reading -/

def col (A : ColMatrix α rows cols) (j : Nat) : Vector α rows :=
  A.columns.getD j (zeroVec rows)

/-- The entry `i` places below the top of column `j`. -/
def entry (A : ColMatrix α rows cols) (i j : Nat) : α :=
  (A.col (j + i / rows)).getD (i % rows) 0

def row (A : ColMatrix α rows cols) (i : Nat) : Vector α cols :=
  Vector.ofFn fun j => A.entry i j

/-! ## Writing -/

def setCol (A : ColMatrix α rows cols) (j : Nat) (v : Vector α rows) : ColMatrix α rows cols :=
  ⟨A.columns.setIfInBounds j v⟩

def setEntry (A : ColMatrix α rows cols) (i j : Nat) (x : α) : ColMatrix α rows cols :=
  A.setCol (j + i / rows) ((A.col (j + i / rows)).setIfInBounds (i % rows) x)

def swapCols (A : ColMatrix α rows cols) (k l : Nat) : ColMatrix α rows cols :=
  ⟨A.columns.swapIfInBounds k l⟩

/-! ## What was written is read -/

@[simp] theorem col_ofFn (f : Fin rows → Fin cols → α) {j : Nat} (h : j < cols) :
    (ofFn f).col j = Vector.ofFn fun i => f i ⟨j, h⟩ := by
  simp [ofFn, col, Vector.getD, h]

theorem entry_eq_getElem (A : ColMatrix α rows cols) {i : Nat} (j : Nat) (hi : i < rows) :
    A.entry i j = (A.col j)[i] := by
  simp [entry, Vector.getD, Nat.div_eq_of_lt hi, Nat.mod_eq_of_lt hi, hi]

@[simp] theorem entry_ofFn (f : Fin rows → Fin cols → α) {i j : Nat} (hi : i < rows)
    (hj : j < cols) : (ofFn f).entry i j = f ⟨i, hi⟩ ⟨j, hj⟩ := by
  simp [entry_eq_getElem, hi, hj]

theorem ext_entry {A B : ColMatrix α rows cols}
    (h : ∀ (i : Fin rows) (j : Fin cols), A.entry i j = B.entry i j) : A = B := by
  obtain ⟨a⟩ := A
  obtain ⟨b⟩ := B
  congr
  ext j hj i hi
  simpa [entry_eq_getElem, hi, hj, col, Vector.getD] using h ⟨i, hi⟩ ⟨j, hj⟩

theorem entry_identity (n : Nat) (s : α) {i j : Nat} (hi : i < n) (hj : j < n) :
    (identity n s).entry i j = if i = j then s else 0 := by
  simp [identity, hi, hj]

theorem getElem_row (A : ColMatrix α rows cols) (i : Nat) {j : Nat} (hj : j < cols) :
    (A.row i)[j] = A.entry i j := by
  simp [row]

theorem col_setCol_self (A : ColMatrix α rows cols) {j : Nat} (v : Vector α rows) (h : j < cols) :
    (A.setCol j v).col j = v := by
  simp [setCol, col, Vector.getD, h]

theorem col_setCol_of_ne (A : ColMatrix α rows cols) {j k : Nat} (v : Vector α rows) (h : j ≠ k) :
    (A.setCol j v).col k = A.col k := by
  simp [setCol, col, Vector.getD, Array.getD_eq_getD_getElem?, h]

/-! ## Plane rotations of two columns -/

/-- Replaces columns `(z, w)` at `k` and `l` by `(c z + s w, c w - s z)`; at one position the
second replacement stands. -/
def rotateCols (A : ColMatrix α rows cols) (k l : Nat) (c s : α) : ColMatrix α rows cols :=
  let z := A.col k
  let w := A.col l
  (A.setCol k (z.zipWith (fun x y => c * x + s * y) w)).setCol l
    (z.zipWith (fun x y => c * y - s * x) w)

/-- Replaces columns `(z, w)` at `k` and `l` by `(c w + s z, c z - s w)`: the rotation that
exchanges the roles of two neighbours and keeps the triangular structure. -/
def exchangeCols (A : ColMatrix α rows cols) (k l : Nat) (c s : α) : ColMatrix α rows cols :=
  let z := A.col k
  let w := A.col l
  (A.setCol k (z.zipWith (fun x y => c * y + s * x) w)).setCol l
    (z.zipWith (fun x y => c * x - s * y) w)

end

end ColMatrix

end TrustSimplex
