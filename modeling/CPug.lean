import CPug.Outline.Forest
import CPug.Outline.Spine
import CPug.Outline.Layout
import CPug.Outline.NearestSmaller
import CPug.Outline.TagSequence
import CPug.Tokenizer
import CPug.Renderer
import CPug.InlineText
import CPug.TextPieces
import CPug.RoundTrip
import CPug.Nesting
import CPug.Termination
import CPug.Composition
import CPug.Indentation
import CPug.AttributeReader
import CPug.QuotedValues
import CPug.Nodes
import CPug.PrettyPrint
import CPug.WellFormed
import CPug.TreeShape
import CPug.PipedText
import CPug.Shorthands
import CPug.TrailingBlanks
import CPug.TokenInvariant
import CPug.Escaping
import CPug.DebugComments
import CPug.LineStarts
import CPug.Renaming
import CPug.AttributeNames
import CPug.ClassBuffer
import CPug.Reads
import CPug.Columns
import CPug.Document
import CPug.Allocation.Run
import CPug.LevelledLines
import CPug.Counters
import CPug.Work
import CPug.OutputSize
import CPug.PrettyLines
import CPug.Height
import CPug.Finality
import CPug.Refusals
import CPug.TemplateDocument
import CPug.DebugDump
