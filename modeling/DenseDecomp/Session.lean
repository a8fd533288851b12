import DenseDecomp.Cholesky.Decomposition
import DenseDecomp.DenseMatrix.Exchange
import DenseDecomp.DenseMatrix.Text
import DenseDecomp.Eigen.Decomposition
import DenseDecomp.Scalar.Binary64

namespace DenseDecomp

inductive Value where
  | matrix (m : DenseMatrix Float)
  | cholesky (c : Cholesky Float)
  | eigen (x : EigenDecomposition Float)

inductive Source where
  | zeros (rows cols : Nat)
  | ofArray (rows cols : Nat) (data : Array Float)
  | ofRows (rows : Array (Array Float))
  | identity (n : Nat)
  | ofDiagonal (xs : Array Float)
  | ofColumnMajor (m : ColumnMajor Float)
  | ofStrided (m : Strided Float)
  | copy (name : String)
  | transpose (name : String)
  | scale (name : String) (factor : Float)
  | multiply (left right : String)
  | sub (left right : String)
  | cholesky (name : String)
  | eigen (name : String) (config : EigenConfig)
  | factor (name : String)
  | inverse (name : String)
  | solve (name rhs : String)
  | vectors (name : String)
  | blockDiagonal (name : String)

inductive Query where
  | get (name : String) (i j : Nat)
  | address (name : String) (i j : Nat)
  | row (name : String) (i : Nat)
  | column (name : String) (j : Nat)
  | diagonal (name : String)
  | entries (name : String)
  | shape (name : String)
  | isSymmetric (name : String)
  | maxAbs (name : String)
  | frobeniusNorm (name : String)
  | text (name : String)
  | equals (left right : String)
  | columnMajor (name : String)
  | byRows (name : String)
  | solveVector (name : String) (b : Array Float)
  | determinant (name : String)
  | isSpd (name : String)
  | eigenvalues (name : String)

inductive Command where
  | make (target : String) (source : Source)
  | set (name : String) (i j : Nat) (x : Float)
  | ask (query : Query)

inductive Reply where
  | value (v : Value)
  | number (x : Float)
  | numbers (xs : Array Float)
  | offset (k : Nat)
  | flag (b : Bool)
  | shape (rows cols : Nat) (square : Bool)
  | text (s : String)
  | pairs (xs : Array (Float × Float))
  | columnMajor (m : ColumnMajor Float)
  | strided (m : Strided Float)

inductive Refusal where
  | failure (f : Failure Float)
  | unbound (name : String)
  | otherKind (name : String)

abbrev Session := String → Option Value

namespace Session

def empty : Session := fun _ ↦ none

def put (s : Session) (name : String) (v : Value) : Session :=
  fun other ↦ if other = name then some v else s other

def value (s : Session) (name : String) : Except Refusal Value :=
  match s name with
  | some v => .ok v
  | none => .error (.unbound name)

def matrix (s : Session) (name : String) : Except Refusal (DenseMatrix Float) := do
  match ← s.value name with
  | .matrix m => .ok m
  | _ => .error (.otherKind name)

def cholesky (s : Session) (name : String) : Except Refusal (Cholesky Float) := do
  match ← s.value name with
  | .cholesky c => .ok c
  | _ => .error (.otherKind name)

def eigen (s : Session) (name : String) : Except Refusal (EigenDecomposition Float) := do
  match ← s.value name with
  | .eigen x => .ok x
  | _ => .error (.otherKind name)

def lift {β : Type} (x : Outcome Float β) : Except Refusal β := x.mapError .failure

def make (s : Session) : Source → Run Refusal Value
  | .zeros r c => .ofOutcome <| lift do return .matrix (← DenseMatrix.zeros r c)
  | .ofArray r c data => .ofOutcome <| lift do return .matrix (← DenseMatrix.ofArray r c data)
  | .ofRows rows => .ofOutcome <| lift do return .matrix (← DenseMatrix.ofRows rows)
  | .identity n => .ofOutcome <| lift do return .matrix (← DenseMatrix.identity n)
  | .ofDiagonal xs => .ofOutcome <| lift do return .matrix (← DenseMatrix.ofDiagonal xs)
  | .ofColumnMajor m => .ofOutcome <| lift do return .matrix (← m.toDense)
  | .ofStrided m => .ofOutcome <| lift do return .matrix (← m.toDense)
  | .copy name => .ofOutcome (s.value name)
  | .transpose name => .ofOutcome do return .matrix (← s.matrix name).transpose
  | .scale name factor => .ofOutcome do return .matrix ((← s.matrix name).scale factor)
  | .multiply left right => .ofOutcome do
    let a ← s.matrix left
    let b ← s.matrix right
    return .matrix (← lift (a.multiply b))
  | .sub left right => .ofOutcome do
    let a ← s.matrix left
    let b ← s.matrix right
    return .matrix (← lift (a.sub b))
  | .cholesky name => do
    let a ← Run.ofOutcome (s.matrix name)
    let c ← (Cholesky.decompose a).mapError .failure
    return .cholesky c
  | .eigen name config => do
    let a ← Run.ofOutcome (s.matrix name)
    let x ← (EigenDecomposition.decompose config a).mapError .failure
    return .eigen x
  | .factor name => .ofOutcome do return .matrix (← s.cholesky name).factor
  | .inverse name => .ofOutcome do return .matrix (← lift (← s.cholesky name).inverse)
  | .solve name rhs => .ofOutcome do
    let c ← s.cholesky name
    let b ← s.matrix rhs
    return .matrix (← lift (c.solve b))
  | .vectors name => .ofOutcome do return .matrix (← s.eigen name).vectors
  | .blockDiagonal name => .ofOutcome do return .matrix (← lift (← s.eigen name).blockDiagonal)

def ask (s : Session) : Query → Except Refusal Reply
  | .get name i j => do return .number (← lift ((← s.matrix name).get i j))
  | .address name i j => do return .offset (← lift ((← s.matrix name).address i j))
  | .row name i => do return .numbers (← lift ((← s.matrix name).row i))
  | .column name j => do return .numbers (← lift ((← s.matrix name).column j))
  | .diagonal name => do return .numbers (← lift (← s.matrix name).diagonal)
  | .entries name => do return .numbers (← s.matrix name).data
  | .shape name => do
    let m ← s.matrix name
    return .shape m.rows m.cols m.isSquare
  | .isSymmetric name => do return .flag (← s.matrix name).isSymmetric
  | .maxAbs name => do return .number (← s.matrix name).maxAbs
  | .frobeniusNorm name => do return .number (← s.matrix name).frobeniusNorm
  | .text name => do return .text (← s.matrix name).text
  | .equals left right => do
    let a ← s.matrix left
    let b ← s.matrix right
    return .flag (a == b)
  | .columnMajor name => do return .columnMajor (.ofDense (← s.matrix name))
  | .byRows name => do return .strided (.ofDense (← s.matrix name))
  | .solveVector name b => do return .numbers (← lift ((← s.cholesky name).solveVector b))
  | .determinant name => do return .number (← lift (← s.cholesky name).determinant)
  | .isSpd name => do return .flag (← s.cholesky name).isSpd
  | .eigenvalues name => do return .pairs (← s.eigen name).values

/-- Runs one command. A command that is refused leaves every register as it was. -/
def step (s : Session) (c : Command) : Session × Run Refusal Reply :=
  match c with
  | .make target source =>
    let r := s.make source
    match r.outcome with
    | .ok v => (s.put target v, ⟨r.log, .ok (.value v)⟩)
    | .error e => (s, ⟨r.log, .error e⟩)
  | .set name i j x =>
    match (do lift ((← s.matrix name).set i j x)) with
    | .ok m => (s.put name (.matrix m), .ofOutcome (.ok (.value (.matrix m))))
    | .error e => (s, .ofOutcome (.error e))
  | .ask query => (s, .ofOutcome (s.ask query))

def run (s : Session) : List Command → Session × List (Run Refusal Reply)
  | [] => (s, [])
  | c :: cs =>
    let (s, r) := s.step c
    let (s, rs) := s.run cs
    (s, r :: rs)

end Session

end DenseDecomp
