import NullSafety.AnnotationTable
import NullSafety.ClassTable
import NullSafety.Declaration
import NullSafety.ErasedType
import NullSafety.Member
import NullSafety.Memo
import NullSafety.MethodType
import NullSafety.Name
import NullSafety.Nullness
import NullSafety.ParameterCache
import NullSafety.ParameterTypes
import NullSafety.Primitive
import NullSafety.Reader
import NullSafety.Resolution
import NullSafety.ResolutionCache
import NullSafety.Session
import NullSafety.Signature.Basic
import NullSafety.Signature.Erasure
import NullSafety.Signature.GenericType
import NullSafety.Signature.Malformed
import NullSafety.Signature.Parser
import NullSafety.Signature.Printer
import NullSafety.Text
import NullSafety.Proofs.Names
import NullSafety.Proofs.Printed
import NullSafety.Proofs.ReaderLoops
import NullSafety.Proofs.Reads
import NullSafety.Proofs.ReadsBack
import NullSafety.Proofs.RepeatedReads
import NullSafety.Proofs.WellFormed
import NullSafety.Proofs.TypeReads
import NullSafety.Proofs.SignatureReads
import NullSafety.Proofs.TypeReadsBack
import NullSafety.Proofs.SignatureReadsBack
import NullSafety.Proofs.RoundTrip
import NullSafety.Proofs.ErrorPosition
import NullSafety.Proofs.Descriptors
import NullSafety.Proofs.NonGeneric
import NullSafety.Proofs.Recognized
import NullSafety.Proofs.DecidingSite
import NullSafety.Proofs.CacheCoherence
import NullSafety.Proofs.CacheTransparency
import NullSafety.Proofs.ErasureChain
import NullSafety.Proofs.Explains
import NullSafety.Proofs.SignatureExplains
import NullSafety.Proofs.Diagnosis
import NullSafety.Proofs.CountedReader
import NullSafety.Proofs.CallBudget
import NullSafety.Proofs.BoundErasure
import NullSafety.Proofs.LegalErasure
import NullSafety.Proofs.ParameterBases
import NullSafety.Proofs.ParameterSource
import NullSafety.Proofs.PrimitiveUse
import NullSafety.Proofs.InsertionHistory
import NullSafety.Proofs.ThrownTypes
import NullSafety.Proofs.NonInterference
import NullSafety.Proofs.TableRebuild
import NullSafety.Proofs.MemoRuns
import NullSafety.Proofs.ClassHistory
import NullSafety.Proofs.NeedlessReports
