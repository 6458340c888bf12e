import Columnar.Proofs.Store.Agreement
import Columnar.Read.Description
import Columnar.Read.Output

namespace Columnar.Stores.Agrees

/-!
Stores that hold the same objects are read alike.
-/

variable {left right : Stores} {codec : Codec}

theorem loadCatalog (agrees : left.Agrees right) (directory : Place) :
    Columnar.loadCatalog left directory = Columnar.loadCatalog right directory := by
  simp only [Columnar.loadCatalog, agrees.read]

theorem openParts (agrees : left.Agrees right) (directory : Place) (column count index : Nat) :
    ColumnReader.openParts codec left directory column count index =
      ColumnReader.openParts codec right directory column count index := by
  induction count generalizing index with
  | zero => rfl
  | succ count ih => simp only [ColumnReader.openParts, PartReader.ofPlace, agrees.read, ih]

theorem ofCatalog (agrees : left.Agrees right) (directory : Place) (catalog : Catalog)
    (column : Nat) :
    ColumnReader.ofCatalog codec left directory catalog column =
      ColumnReader.ofCatalog codec right directory catalog column := by
  simp only [ColumnReader.ofCatalog, agrees.openParts]

theorem readColumn {σ : Type} (agrees : left.Agrees right) (path : String) (index : Nat)
    (sink : Sink σ) (state : σ) :
    Read.column left path index sink state = Read.column right path index sink state := by
  simp only [Read.column, ColumnReader.ofPath, agrees.resolve, agrees.loadCatalog,
    agrees.ofCatalog]

theorem ofEntries (agrees : left.Agrees right) (directory : Place) (catalog : Catalog)
    (index : Nat) (entries : List CatalogEntry) :
    StoreDescription.ofEntries left directory catalog index entries =
      StoreDescription.ofEntries right directory catalog index entries := by
  induction entries generalizing index with
  | nil => rfl
  | cons entry rest ih =>
      simp only [StoreDescription.ofEntries, ColumnDescription.ofEntry, agrees.ofCatalog, ih]

theorem describe (agrees : left.Agrees right) (path : String) :
    StoreDescription.ofPath left path = StoreDescription.ofPath right path := by
  simp only [StoreDescription.ofPath, agrees.resolve, agrees.loadCatalog, agrees.ofEntries]

end Columnar.Stores.Agrees
