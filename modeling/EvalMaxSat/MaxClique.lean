import EvalMaxSat.CheckedRuns
import Mathlib.Data.List.Sort

/-!
The clique search used by the exact at-most-one pass. Every access to an array or to the
matrix is checked, and a field of a vertex that was never written has no value: a `none` is
what the source leaves undefined.
-/
namespace EvalMaxSat
open CheckedRuns

namespace Maxclique

structure Vertex where
  i : Option Nat
  d : Option Nat
  deriving DecidableEq, Repr

/-- An array of vertices of which the first `sz` are in use. -/
structure Vertices where
  v : List Vertex
  sz : Nat
  deriving DecidableEq, Repr

structure ColorClass where
  cap : Nat
  i : List Nat
  deriving DecidableEq, Repr

structure StepCount where
  i1 : Int
  i2 : Int
  deriving DecidableEq, Repr

/-- What the search takes from the compiler and the library: an order by falling degree, and
the floating-point comparison of `i1 / pk` with `Tlimit`. -/
structure Platform where
  sort : List Vertex → List Vertex
  perm : ∀ vs, (sort vs).Perm vs
  sorted : ∀ vs, (sort vs).Pairwise fun a b => b.d.getD 0 ≤ a.d.getD 0
  belowTlimit : Int → Nat → Bool

def connection (conn : Nat → Nat → Bool) (n i j : Nat) : Option Bool :=
  if i < n ∧ j < n then some (conn i j) else none

namespace Vertices

def alloc (size : Nat) : Vertices := ⟨List.replicate size ⟨none, none⟩, 0⟩

def get_i (R : Vertices) (ii : Nat) : Option Nat := do
  let vertex ← R.v[ii]?
  vertex.i

def get_degree (R : Vertices) (ii : Nat) : Option Nat := do
  let vertex ← R.v[ii]?
  vertex.d

def set_i (R : Vertices) (ii x : Nat) : Option Vertices :=
  if ii < R.v.length then some { R with v := R.v.modify ii fun vertex => { vertex with i := x } }
  else none

def set_degree (R : Vertices) (ii d : Nat) : Option Vertices :=
  if ii < R.v.length then some { R with v := R.v.modify ii fun vertex => { vertex with d := d } }
  else none

def push (R : Vertices) (ii : Nat) : Option Vertices := do
  let R ← R.set_i R.sz ii
  return { R with sz := R.sz + 1 }

def sort (host : Platform) (R : Vertices) : Option Vertices :=
  if R.sz ≤ R.v.length ∧ ∀ vertex ∈ R.v.take R.sz, vertex.d.isSome then
    some { R with v := host.sort (R.v.take R.sz) ++ R.v.drop R.sz }
  else none

def set_degrees (conn : Nat → Nat → Bool) (n : Nat) (R : Vertices) : Option Vertices :=
  (List.range R.sz).foldlM (fun R i => do
    let d ← (List.range R.sz).foldlM (fun d j => do
      let edge ← connection conn n (← R.get_i i) (← R.get_i j)
      return if edge then d + 1 else d) 0
    R.set_degree i d) R

def init_colors (R : Vertices) : Option Vertices := do
  let max_degree ← R.get_degree 0
  let R ← (List.range max_degree).foldlM (fun R i => R.set_degree i (i + 1)) R
  (List.range' max_degree (R.sz - max_degree)).foldlM
    (fun R i => R.set_degree i (max_degree + 1)) R

end Vertices

namespace ColorClass

def init (size : Nat) : ColorClass := ⟨size, []⟩

def push (A : ColorClass) (ii : Nat) : Option ColorClass :=
  if A.i.length < A.cap then some { A with i := A.i ++ [ii] } else none

def pop (A : ColorClass) : ColorClass := { A with i := A.i.dropLast }

/-- `operator=`, which copies into the array of the left side. -/
def assign (A dh : ColorClass) : Option ColorClass :=
  if dh.i.length ≤ A.cap then some { A with i := dh.i } else none

end ColorClass

/-- The fields of the class that change. -/
structure Search where
  pk : Nat
  level : Nat
  C : List ColorClass
  QMAX : ColorClass
  Q : ColorClass
  S : List StepCount
  deriving DecidableEq, Repr

variable (host : Platform) (conn : Nat → Nat → Bool) (n : Nat)

def anyConnected (pi : Nat) : List Nat → Option Bool
  | [] => some false
  | a :: rest => do
    if ← connection conn n pi a then return true
    else anyConnected pi rest

def cut1 (pi : Nat) (A : ColorClass) : Option Bool := anyConnected conn n pi A.i

def cut2 (A B : Vertices) : Option Vertices :=
  (List.range (A.sz - 1)).foldlM (fun B i => do
    let edge ← connection conn n (← A.get_i (A.sz - 1)) (← A.get_i i)
    if edge then B.push (← A.get_i i) else some B) B

def rewind (C : List ColorClass) (k : Nat) : Option (List ColorClass) := do
  let A ← C[k]?
  return C.set k { A with i := [] }

def pushClass (C : List ColorClass) (k pi : Nat) : Option (List ColorClass) := do
  let A ← C[k]?
  let A ← A.push pi
  return C.set k A

/-- `while (cut1(pi, C[k])) k++`, where the list is what is left of `C` from `k` on. -/
def freeClass (pi : Nat) : List ColorClass → Nat → Option Nat
  | [], _ => none
  | A :: rest, k => do
    if ← cut1 conn n pi A then freeClass pi rest (k + 1)
    else return k

structure Coloring where
  R : Vertices
  C : List ColorClass
  j : Nat
  maxno : Nat

/-- The body of the first loop of `color_sort`. -/
def colorVertex (min_k : Int) (s : Coloring) (i : Nat) : Option Coloring := do
  let pi ← s.R.get_i i
  let k ← freeClass conn n pi (s.C.drop 1) 1
  let C ← (if s.maxno < k then rewind s.C (k + 1) else some s.C)
  let C ← pushClass C k pi
  let maxno := if s.maxno < k then k else s.maxno
  if (k : Int) < min_k then
    let R ← s.R.set_i s.j pi
    return ⟨R, C, s.j + 1, maxno⟩
  else return ⟨s.R, C, s.j, maxno⟩

/-- The body of the last loop of `color_sort`. -/
def writeClass (C : List ColorClass) (s : Vertices × Nat) (k : Nat) :
    Option (Vertices × Nat) := do
  let A ← C[k]?
  A.i.foldlM (fun (s : Vertices × Nat) pi => do
    let R ← s.1.set_i s.2 pi
    let R ← R.set_degree s.2 k
    return (R, s.2 + 1)) s

/-- `color_sort` on the arrays it reads and writes. -/
def colorClasses (min_k : Int) (C : List ColorClass) (R : Vertices) :
    Option (Vertices × List ColorClass) := do
  let C ← rewind C 1
  let C ← rewind C 2
  let s ← (List.range R.sz).foldlM (colorVertex conn n min_k) ⟨R, C, 0, 1⟩
  let R ← (if 0 < s.j then s.R.set_degree (s.j - 1) 0 else some s.R)
  let min_k := if min_k ≤ 0 then 1 else min_k.toNat
  let r ← (List.range' min_k (s.maxno + 1 - min_k)).foldlM (writeClass s.C) (R, s.j)
  return (r.1, s.C)

def color_sort (m : Search) (R : Vertices) : Option (Vertices × Search) := do
  let r ← colorClasses conn n (m.QMAX.i.length - m.Q.i.length + 1) m.C R
  return (r.1, { m with C := r.2 })

namespace Search

def pushQ (m : Search) (ii : Nat) : Option Search := do
  let Q ← m.Q.push ii
  return { m with Q := Q }

def popQ (m : Search) : Search := { m with Q := m.Q.pop }

def improve (m : Search) : Option Search := do
  if m.QMAX.i.length < m.Q.i.length then
    let QMAX ← m.QMAX.assign m.Q
    return { m with QMAX := QMAX }
  else return m

/-- The first two statements of `expand_dyn`. -/
def enter (m : Search) : Option Search := do
  if m.level = 0 then none
  let here ← m.S[m.level]?
  let above ← m.S[m.level - 1]?
  return { m with S := m.S.set m.level ⟨here.i1 + above.i1 - here.i2, above.i1⟩ }

def inc_i1 (m : Search) : Option Search := do
  let here ← m.S[m.level]?
  return { m with S := m.S.set m.level { here with i1 := here.i1 + 1 } }

end Search

/-- What `expand` does with the candidates left next to the vertex it has just taken;
`inner` is the recursive call. -/
def descend (inner : Vertices → Search → Option Search) (Rp : Vertices) (m : Search) :
    Option Search := do
  if Rp.sz ≠ 0 then
    let (Rp, m) ← color_sort conn n m Rp
    inner Rp { m with pk := m.pk + 1 }
  else m.improve

/-- The loop of `expand` on the first `sz` vertices of `R`. -/
def expandLoop (inner : Vertices → Search → Option Search) (R : Vertices) :
    Nat → Search → Option Search
  | 0, m => some m
  | sz + 1, m => do
    let d ← R.get_degree sz
    if m.QMAX.i.length < m.Q.i.length + d then
      let m ← m.pushQ (← R.get_i sz)
      let Rp ← cut2 conn n { R with sz := sz + 1 } (Vertices.alloc (sz + 1))
      let m ← descend conn n inner Rp m
      expandLoop inner R sz m.popQ
    else return m

/-- The number bounds the depth of the recursion. -/
def expand : Nat → Vertices → Search → Option Search
  | 0, _, _ => none
  | depth + 1, R, m => expandLoop conn n (expand depth) R R.sz m

def degree_sort (R : Vertices) : Option Vertices := do
  let R ← R.set_degrees conn n
  R.sort host

/-- What `expand_dyn` does with the candidates left next to the vertex it has just taken. -/
def descend_dyn (inner : Vertices → Search → Option Search) (Rp : Vertices) (m : Search) :
    Option Search := do
  if Rp.sz ≠ 0 then
    let here ← m.S[m.level]?
    let m := { m with pk := m.pk + 1 }
    let Rp ← (if host.belowTlimit here.i1 m.pk then degree_sort host conn n Rp else some Rp)
    let (Rp, m) ← color_sort conn n m Rp
    let m ← m.inc_i1
    let m ← inner Rp { m with level := m.level + 1 }
    return { m with level := m.level - 1 }
  else m.improve

/-- The loop of `expand_dyn` on the first `sz` vertices of `R`. -/
def expandLoop_dyn (maxStep : Int) (inner : Vertices → Search → Option Search)
    (R : Vertices) : Nat → Search → Option Search
  | 0, m => some m
  | sz + 1, m => do
    if maxStep < m.pk then return m
    let d ← R.get_degree sz
    if m.QMAX.i.length < m.Q.i.length + d then
      let m ← m.pushQ (← R.get_i sz)
      let Rp ← cut2 conn n { R with sz := sz + 1 } (Vertices.alloc (sz + 1))
      let m ← descend_dyn host conn n inner Rp m
      expandLoop_dyn maxStep inner R sz m.popQ
    else return m

def expand_dyn (maxStep : Int) : Nat → Vertices → Search → Option Search
  | 0, _, _ => none
  | depth + 1, R, m => do
    let m ← m.enter
    expandLoop_dyn host conn n maxStep (expand_dyn maxStep depth) R R.sz m

/-- The constructor, for `sz > 0`: the vertices, and everything else empty. -/
def construct : Option (Vertices × Search) := do
  if n = 0 then none
  let V ← (List.range n).foldlM Vertices.push (Vertices.alloc n)
  return (V, {
    pk := 0, level := 1
    C := List.replicate (n + 1) (.init (n + 1))
    QMAX := .init n, Q := .init n
    S := List.replicate (n + 1) ⟨0, 0⟩ })

/-- The first statements of `_mcq`. -/
def prepare (V : Vertices) : Option Vertices := do
  let V ← V.set_degrees conn n
  let V ← V.sort host
  V.init_colors

/-- The first loop of `_mcq`. -/
def clearCounts (V : Vertices) (S : List StepCount) : Option (List StepCount) :=
  (List.range (V.sz + 1)).foldlM (fun (S : List StepCount) i =>
    if i < S.length then some (S.set i ⟨0, 0⟩) else none) S

def _mcq (maxStep : Int) (dyn : Bool) : Option (List Nat × Nat) := do
  let (V, m) ← construct n
  let V ← prepare host conn n V
  let m ← (if dyn then do
      let S ← clearCounts V m.S
      expand_dyn host conn n maxStep n V { m with S := S }
    else expand conn n n V m)
  return (m.QMAX.i, m.pk)

/-- The clique, and `steps()` after the call. -/
def mcq (maxStep : Int) : Option (List Nat × Nat) := _mcq host conn n maxStep false

def mcqdyn (maxStep : Int) : Option (List Nat × Nat) := _mcq host conn n maxStep true

/-- A platform that can be run: insertion sort, and an exact comparison with `0.025`. -/
def referencePlatform : Platform where
  sort := List.insertionSort fun a b => b.d.getD 0 ≤ a.d.getD 0
  perm := fun vs => List.perm_insertionSort _ vs
  sorted := fun vs => by
    have total : Std.Total fun a b : Vertex => b.d.getD 0 ≤ a.d.getD 0 :=
      ⟨fun a b => Nat.le_total _ _⟩
    have trans : IsTrans Vertex fun a b => b.d.getD 0 ≤ a.d.getD 0 :=
      ⟨fun _ _ _ first second => Nat.le_trans second first⟩
    exact List.pairwise_insertionSort _ vs
  belowTlimit := fun i1 pk => 40 * i1 < pk

end Maxclique
end EvalMaxSat
