import BigBox.Xml.XmlDump

namespace BigBox.Xml
set_option autoImplicit true

section Tags

/-- The tag the parser makes of an opening tag. -/
def Tag.read (tag : Tag) : Option Tag :=
  if tag.text.getLast? = some SLASH then parseTag tag.text.dropLast else parseTag tag.text

theorem AttrKept.strip (h : AttrKept pfx attr) : strStrip attr = some attr :=
  strStrip_eq_self h.nonempty h.head h.last

end Tags

section Steps

end Steps

section RoundTrip

/-- The children are read back by any number of rounds that is enough. -/
def Nodes.Reads (f : Nodes) : Prop := ∀ {n : Nat} {r : Element}, f.dump.length < n →
  ((∃ s g, f = .text s g) → r.child = .nil) →
    ((∃ g, parseDoc n f.dump (some r) = some (some (r.addChild g)) ∧ g.forget = f.forget) ↔ f.Ok)

end RoundTrip

end BigBox.Xml
