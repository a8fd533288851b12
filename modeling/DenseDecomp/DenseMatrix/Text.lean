import DenseDecomp.Decimal.Layout
import DenseDecomp.DenseMatrix.Basic

namespace DenseDecomp.DenseMatrix

def rowText (xs : List Float) : String :=
  "[" ++ String.intercalate ", " (xs.map Decimal.Layout.plain.render) ++ "]\n"

def text (m : DenseMatrix Float) : String :=
  String.join ((List.range m.rows).map fun i ↦
    rowText ((m.data.extract (i * m.cols) ((i + 1) * m.cols)).toList))

end DenseDecomp.DenseMatrix
