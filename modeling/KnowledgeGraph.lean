import KnowledgeGraph.CommandLine.Inputs
import KnowledgeGraph.Graph.Agreement
import KnowledgeGraph.Main
import KnowledgeGraph.Proofs.Graph.Deduplication
import KnowledgeGraph.Proofs.Graph.Reachable
import KnowledgeGraph.Proofs.Graph.Records
import KnowledgeGraph.Proofs.Graph.Restriction
import KnowledgeGraph.Proofs.Graph.SharedIds
import KnowledgeGraph.Proofs.Graph.Substitution
import KnowledgeGraph.Proofs.Graph.Union
import KnowledgeGraph.Proofs.Issuing
import KnowledgeGraph.Proofs.Matching.Budget
import KnowledgeGraph.Proofs.Matching.Unknowns
import KnowledgeGraph.Proofs.Outline.Meaning
import KnowledgeGraph.Proofs.Outline.Text
import KnowledgeGraph.Proofs.Outline.Tops
import KnowledgeGraph.Proofs.Outline.Expansion
import KnowledgeGraph.Proofs.Rule.Assembly
import KnowledgeGraph.Proofs.Rule.Capture
import KnowledgeGraph.Proofs.Rule.First
import KnowledgeGraph.Proofs.Rule.Grounding
import KnowledgeGraph.Proofs.Rule.Growth
import KnowledgeGraph.Proofs.Rule.Inclusion
import KnowledgeGraph.Proofs.Rule.Order
import KnowledgeGraph.Proofs.Rule.Splitting
import KnowledgeGraph.Proofs.Rule.Templates
import KnowledgeGraph.Proofs.Script.Atomicity
import KnowledgeGraph.Proofs.Store.Consistency
import KnowledgeGraph.Proofs.Store.Facts
import KnowledgeGraph.Proofs.Store.Querying
import KnowledgeGraph.Proofs.Store.Rules
import KnowledgeGraph.Store.Record
