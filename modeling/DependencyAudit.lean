import DependencyAudit.Benchmark.CommandLine
import DependencyAudit.Main
import DependencyAudit.Proofs.Analysis.IgnoredNames
import DependencyAudit.Proofs.Benchmark.FileNames
import DependencyAudit.Proofs.Benchmark.GeneratedProject
import DependencyAudit.Proofs.Benchmark.ProjectAudits
import DependencyAudit.Proofs.Benchmark.ProjectScan
import DependencyAudit.Proofs.Benchmark.ProjectTree
import DependencyAudit.Proofs.Benchmark.WrittenImports
import DependencyAudit.Proofs.CommandLine.IgnoredTokens
import DependencyAudit.Proofs.CommandLine.SpelledOptions
import DependencyAudit.Proofs.Files.Writing
import DependencyAudit.Proofs.Json.CutTexts
import DependencyAudit.Proofs.Manifest.CutFiles
import DependencyAudit.Proofs.Manifest.MergedClasses
import DependencyAudit.Proofs.Manifest.Outcomes
import DependencyAudit.Proofs.Report.ReadBack
import DependencyAudit.Proofs.Report.TextLayout
import DependencyAudit.Proofs.Run.Colors
import DependencyAudit.Proofs.Run.JsonReport
import DependencyAudit.Proofs.Run.Noninterference
import DependencyAudit.Proofs.Run.Respelling
import DependencyAudit.Proofs.Source.ExclusionRule
import DependencyAudit.Proofs.Source.GrowingSources
import DependencyAudit.Proofs.Source.MissingRoots
import DependencyAudit.Proofs.Source.Occurrences
import DependencyAudit.Proofs.Source.PackageNames
import DependencyAudit.Proofs.Source.ParallelCollection
import DependencyAudit.Proofs.Source.Respacing
import DependencyAudit.Proofs.Source.SeparateTexts
import DependencyAudit.Proofs.Source.SkippedFiles
import DependencyAudit.Proofs.Source.StrayMarks
import DependencyAudit.Proofs.Source.Subdirectories
import DependencyAudit.Proofs.Text.StrayBytes
