import BonsaiNinja.FactStore.ReleasablePool

namespace BonsaiNinja.Idg
open Library

abbrev PlaceDict := Interner Place

namespace PlaceDict

def new : PlaceDict := Interner.new

def intern (dict : PlaceDict) (place : Place) : Option (UInt32 × PlaceDict) := Interner.intern dict place

def get (dict : PlaceDict) (id : UInt32) : Option Place := Interner.get dict id

def lookup (dict : PlaceDict) (place : Place) : Option UInt32 := Interner.lookup dict place

def rebuildLookup (dict : PlaceDict) : PlaceDict := Interner.rebuildLookup dict

def releaseLookup (dict : PlaceDict) : PlaceDict := Interner.releaseLookup dict

def interning : Interning Place PlaceDict where
  new := new
  intern := intern
  lookup dict place := some (lookup dict place)
  get dict id := some (get dict id)
  releaseLookup := releaseLookup
  rebuildLookup dict := some (rebuildLookup dict)
  reload dict := Interner.deserialize dict.serialize

end PlaceDict

abbrev NodeDict := Interner IdgNode

namespace NodeDict

def new : NodeDict := Interner.new

def intern (dict : NodeDict) (func : FuncId) (place : PlaceId) : Option (UInt32 × NodeDict) :=
  Interner.intern dict ⟨func,place⟩

def get (dict : NodeDict) (id : UInt32) : Option IdgNode := Interner.get dict id

def lookup (dict : NodeDict) (func : FuncId) (place : PlaceId) : Option UInt32 := Interner.lookup dict ⟨func,place⟩

def rebuildLookup (dict : NodeDict) : NodeDict := Interner.rebuildLookup dict

def releaseLookup (dict : NodeDict) : NodeDict := Interner.releaseLookup dict

def interning : Interning IdgNode NodeDict where
  new := new
  intern dict node := intern dict node.func node.place
  lookup dict node := some (lookup dict node.func node.place)
  get dict id := some (get dict id)
  releaseLookup := releaseLookup
  rebuildLookup dict := some (rebuildLookup dict)
  reload dict := Interner.deserialize dict.serialize

end NodeDict

end BonsaiNinja.Idg
