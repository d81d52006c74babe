/-
Which column stores a logical property of a query source.
-/
import QueryTree.Assoc
import QueryTree.Tree

namespace QueryTree

/-- A column and its type for each pair of a source and a property. -/
structure PropertyMap where
  columns : List ((Source × String) × (String × DataType)) := []

namespace PropertyMap

/-- Maps a property to a column, in place of the one it has. -/
def register (source : Source) (property : String) (column : String) (type : DataType)
    (c : PropertyMap) : PropertyMap :=
  { columns := Assoc.put (source, property) (column, type) c.columns }

def column? (property : String) (source : Source) (c : PropertyMap) : Option (String × DataType) :=
  c.columns.lookup (source, property)

end PropertyMap

end QueryTree
